import ClosedTypes.Proofs.Ty.Bind
import Mathlib.Tactic.ByContra
import Mathlib.Tactic.Choose
/-!
Types are told apart by their primitive instances, the ones with primitive types for all
metavariables. So a type that comes to each primitive instance of another one has that one as an
instance.
-/

namespace ClosedTypes.Ty

def Primitive (τ : UInt32 → Ty) : Prop := ∀ i, ∃ p, τ i = .prim p

theorem primitive_const (p : Prim) : Primitive fun _ => .prim p := fun _ => ⟨p, rfl⟩

variable {τ : UInt32 → Ty} {t u : Ty} {ts us : List Ty}

theorem exists_const_of_fill {c : Name} {args : List Ty} (hτ : Primitive τ)
    (h : t.fill τ = const c args) :
    ∃ ts, t = const c ts ∧ ts.map (fill τ) = args := by
  cases t with
  | const d ts =>
    rw [fill, bind_const, const.injEq] at h
    exact ⟨ts, by rw [h.1], h.2⟩
  | metavar i =>
    obtain ⟨p, hp⟩ := hτ i
    cases hp.symm.trans h
  | _ => simp at h

theorem exists_tuple_of_fill {elems : List Ty} (hτ : Primitive τ) (h : t.fill τ = tuple elems) :
    ∃ ts, t = tuple ts ∧ ts.map (fill τ) = elems := by
  cases t with
  | tuple ts =>
    rw [fill, bind_tuple, tuple.injEq] at h
    exact ⟨ts, rfl, h⟩
  | metavar i =>
    obtain ⟨p, hp⟩ := hτ i
    cases hp.symm.trans h
  | _ => simp at h

theorem exists_arrow_of_fill {d c : Ty} (hτ : Primitive τ) (h : t.fill τ = arrow d c) :
    ∃ d' c', t = arrow d' c' ∧ d'.fill τ = d ∧ c'.fill τ = c := by
  cases t with
  | arrow d' c' =>
    obtain ⟨hd, hc⟩ := arrow.inj h
    exact ⟨d', c', rfl, hd, hc⟩
  | metavar i =>
    obtain ⟨p, hp⟩ := hτ i
    cases hp.symm.trans h
  | _ => simp at h

theorem eq_var_of_primitive {x : Name} (h : ∀ τ, Primitive τ → t.fill τ = var x) : t = var x := by
  have hint := h _ (primitive_const .int)
  cases t with
  | var y => exact hint
  | _ => simp at hint

theorem eq_prim_of_primitive {p : Prim} (h : ∀ τ, Primitive τ → t.fill τ = prim p) :
    t = prim p := by
  have hint := h _ (primitive_const .int)
  have hbool := h _ (primitive_const .bool)
  cases t with
  | prim q => exact hint
  | metavar i => cases hint.trans hbool.symm
  | _ => simp at hint

theorem eq_metavar_of_primitive {j : UInt32} (h : ∀ τ, Primitive τ → t.fill τ = τ j) :
    t = metavar j := by
  have hint := h _ (primitive_const .int)
  have hbool := h _ (primitive_const .bool)
  cases t with
  | prim q => cases hint.symm.trans hbool
  | metavar i =>
    by_contra hne
    have hprimitive : Primitive fun k => if k = i then .prim .int else .prim .bool := fun k => by
      dsimp only
      split
      · exact ⟨.int, rfl⟩
      · exact ⟨.bool, rfl⟩
    have heq := h _ hprimitive
    rw [fill, bind_metavar, if_pos rfl, if_neg fun e => hne (congrArg metavar e.symm)] at heq
    cases heq
  | _ => simp at hint

/-- If `ρ` says what the metavariables of `u` stand for in all primitive instances of `t`, then
it makes `t` of `u`. -/
theorem eq_fill_of_primitive {f : (UInt32 → Ty) → UInt32 → Ty} {ρ : UInt32 → Ty}
    (hρ : ∀ j t, (∀ τ, Primitive τ → t.fill τ = f τ j) → t = ρ j)
    (h : ∀ τ, Primitive τ → t.fill τ = u.fill (f τ)) :
    t = u.fill ρ := by
  have all {ts us : List Ty}
      (ih : ∀ u ∈ us, ∀ {t : Ty}, (∀ τ, Primitive τ → t.fill τ = u.fill (f τ)) → t = u.fill ρ)
      (h : ∀ τ, Primitive τ → ts.map (fill τ) = us.map (fill (f τ))) : ts = us.map (fill ρ) := by
    have hlen : ts.length = us.length := by
      simpa using congrArg List.length (h _ (primitive_const .int))
    refine List.ext_getElem (by simpa using hlen) fun n hn hn' => ?_
    rw [List.getElem_map]
    refine ih _ (List.getElem_mem _) fun τ hτ => ?_
    have heq := List.getElem_of_eq (h τ hτ) (by simpa using hn)
    rwa [List.getElem_map, List.getElem_map] at heq
  induction u generalizing t with
  | var x => exact eq_var_of_primitive h
  | metavar j => exact hρ j t h
  | prim p => exact eq_prim_of_primitive h
  | const c us ih =>
    simp only [fill, bind_const] at h ⊢
    obtain ⟨ts, rfl, -⟩ := exists_const_of_fill (primitive_const .int) (h _ (primitive_const .int))
    refine congrArg (const c) (all ih fun τ hτ => ?_)
    simpa using h τ hτ
  | tuple us ih =>
    simp only [fill, bind_tuple] at h ⊢
    obtain ⟨ts, rfl, -⟩ := exists_tuple_of_fill (primitive_const .int) (h _ (primitive_const .int))
    refine congrArg tuple (all ih fun τ hτ => ?_)
    simpa using h τ hτ
  | arrow d c ihd ihc =>
    obtain ⟨d', c', rfl, -, -⟩ :=
      exists_arrow_of_fill (primitive_const .int) (h _ (primitive_const .int))
    exact congrArg₂ arrow (ihd fun τ hτ => (arrow.inj (h τ hτ)).1)
      (ihc fun τ hτ => (arrow.inj (h τ hτ)).2)

theorem eq_of_primitive (h : ∀ τ, Primitive τ → t.fill τ = u.fill τ) : t = u :=
  (eq_fill_of_primitive (fun _ _ => eq_metavar_of_primitive) h).trans (bind_id u)

theorem exists_fill_of_primitive (h : ∀ τ, Primitive τ → ∃ σ, u.fill σ = t.fill τ) :
    ∃ ρ, t = u.fill ρ := by
  classical
  choose! f hf using h
  -- a metavariable of `u` stands for the one type that has what it comes to as its primitive
  -- instances
  refine ⟨fun j => if hj : ∃ r : Ty, ∀ τ, Primitive τ → r.fill τ = f τ j then
    hj.choose else .metavar j, eq_fill_of_primitive (f := f) (fun j r hr => ?_) fun τ hτ =>
      (hf τ hτ).symm⟩
  have hj : ∃ r : Ty, ∀ τ, Primitive τ → r.fill τ = f τ j := ⟨r, hr⟩
  rw [dif_pos hj]
  exact eq_of_primitive fun τ hτ => (hr τ hτ).trans (hj.choose_spec τ hτ).symm

end ClosedTypes.Ty
