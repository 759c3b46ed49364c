import ClosedTypes.Proofs.Reduction.Canonicity
import ClosedTypes.Proofs.Reduction.NormalForm
import ClosedTypes.Proofs.Ty.Instances
import ClosedTypes.Proofs.Typing.Completeness
/-!
Subject reduction at the checker: what is inferred for a term is inferred for its normal form, or
something of which it is an instance, as long as the equations carry no annotation that is tied to
the type variables of a signature.
-/

namespace ClosedTypes

variable {D : Discipline} {ctx : Context} {env : TypeEnv} {locals : Locals} {t u : Term} {ty : Ty}
  {x : Name}

namespace Ty

theorem subst_graph {xs : List Name} {θ : Name → Ty} {t : Ty} (h : ∀ x ∈ t.varOccurrences, x ∈ xs) :
    t.subst (.ofList (xs.map fun x => (x, θ x))) = t.inst θ := by
  rw [subst_eq_bind]
  refine bind_congr (fun x hx => ?_) fun _ _ => rfl
  cases hfind : (Index.ofList (xs.map fun x => (x, θ x))).find? x with
  | none =>
    refine absurd ?_ (Index.find?_ofList_eq_none_iff.1 hfind)
    simpa using h x hx
  | some u =>
    obtain ⟨y, -, heq⟩ := List.mem_map.1 (Index.mem_of_find?_ofList hfind)
    cases heq
    rfl

end Ty

theorem Eliminator.Shaped.mem_vars {e : Eliminator} {params : List Name} (he : e.Shaped ctx params)
    (hx : x ∈ params) :
    x ∈ e.signature.vars := by
  refine Ty.mem_vars.2 (Ty.mem_varOccurrences_iff.2 (.inl ⟨_, List.mem_of_head? he.scrutinee, ?_⟩))
  rw [Ty.varOccurrences, Ty.varOccurrencesAll_eq, List.mem_flatMap]
  exact ⟨.var x, List.mem_map_of_mem hx, List.mem_singleton.2 rfl⟩

theorem Ty.subst_graph_parts (signature : Ty) (θ : Name → Ty) :
    (∀ d ∈ signature.doms, d.subst (.ofList (signature.vars.map fun x => (x, θ x))) = d.inst θ) ∧
      signature.result.subst (.ofList (signature.vars.map fun x => (x, θ x))) =
        signature.result.inst θ :=
  ⟨fun d hd => subst_graph fun _ hx => mem_vars.2 (mem_varOccurrences_iff.2 (.inl ⟨d, hd, hx⟩)),
    subst_graph fun _ hx => mem_vars.2 (mem_varOccurrences_iff.2 (.inr hx))⟩

namespace Discipline.Types

theorem hasProjection_eq_false (h : D.Types ctx env t ty) (hD : ¬D.projects) :
    t.hasProjection = false := by
  rw [Term.hasProjection_eq_false_iff]
  have all {ts : List Term} {α : Type} {ds : List α} (hlen : ts.length = ds.length)
      (ih : ∀ p ∈ ts.zip ds, ∀ s ∈ p.1.subterms, s.isProj = false) :
          ∀ s ∈ Term.subtermsAll ts, s.isProj = false :=
    Term.forall_mem_subtermsAll.2 fun t ht => by
      obtain ⟨d, hp⟩ := exists_mem_zip hlen ht
      exact ih _ hp
  induction h with
  | var _ => exact List.forall_mem_singleton.2 rfl
  | lit => exact List.forall_mem_singleton.2 rfl
  | lam _ _ ih => exact List.forall_mem_cons.2 ⟨rfl, ih⟩
  | app _ _ ihf iha => exact List.forall_mem_cons.2 ⟨rfl, List.forall_mem_append.2 ⟨ihf, iha⟩⟩
  | ann _ ih => exact List.forall_mem_cons.2 ⟨rfl, ih⟩
  | ctor _ _ hlen _ ih => exact List.forall_mem_cons.2 ⟨rfl, all hlen ih⟩
  | elim _ _ _ _ hlen _ ihs ih =>
    exact List.forall_mem_cons.2 ⟨rfl, List.forall_mem_append.2 ⟨ihs, all hlen ih⟩⟩
  | prim _ _ _ _ ih => exact List.forall_mem_cons.2 ⟨rfl, Term.forall_mem_subtermsAll.2 ih⟩
  | eq _ _ iha ihb =>
    refine List.forall_mem_cons.2 ⟨rfl, Term.forall_mem_subtermsAll.2 ?_⟩
    simpa using And.intro iha ihb
  | ite _ _ _ ihc iht ihe =>
    refine List.forall_mem_cons.2 ⟨rfl, Term.forall_mem_subtermsAll.2 ?_⟩
    simpa using And.intro ihc (And.intro iht ihe)
  | tuple hlen _ ih => exact List.forall_mem_cons.2 ⟨rfl, all hlen ih⟩
  | proj h => exact absurd h hD

theorem hasType (h : (Discipline.strict ctx).Types ctx env t ty) (henv : env = Locals.type? locals)
    (hann : ∀ s ∈ t.subterms, ∀ v w, s ≠ .ann v w) : HasType ctx locals t ty := by
  induction h generalizing locals with
  | var hx => exact .var (henv ▸ hx)
  | lit => exact .lit
  | @lam env x dom b d c hdom _ ih =>
    have hb := ih (henv ▸ (Locals.type?_cons x d locals).symm) (List.forall_mem_cons.1 hann).2
    cases dom with
    | none => exact .lam hb
    | some written =>
      obtain ⟨rfl, hw⟩ := hdom written rfl
      exact .annotatedLam hw hb
  | app _ _ ihf iha =>
    obtain ⟨hf, ha⟩ := List.forall_mem_append.1 (List.forall_mem_cons.1 hann).2
    exact .app (ihf henv hf) (iha henv ha)
  | ann => exact absurd rfl ((List.forall_mem_cons.1 hann).1 _ _)
  | @ctor env x args d θ hd hlen _ ih =>
    have hargs := Term.forall_mem_subtermsAll.1 (List.forall_mem_cons.1 hann).2
    obtain ⟨hdoms, hresult⟩ := Ty.subst_graph_parts d.signature θ
    rw [← hresult]
    refine .ctor _ hd
      (.of_forall_zip (by rw [List.length_map, hlen]) (forall_zip_map.2 fun p hp => ?_))
    rw [hdoms _ (List.of_mem_zip hp).2]
    exact ih p hp henv (hargs _ (List.of_mem_zip hp).1)
  | @elim env x s args d scrutinee θ hd hscrutinee _ hlen _ ihs ih =>
    obtain ⟨hs, hargs⟩ := List.forall_mem_append.1 (List.forall_mem_cons.1 hann).2
    have hargs := Term.forall_mem_subtermsAll.1 hargs
    obtain ⟨hdoms, hresult⟩ := Ty.subst_graph_parts d.signature θ
    have hs := ihs henv hs
    rw [← hdoms _ (List.mem_of_head? hscrutinee)] at hs
    rw [Eliminator.result, ← hresult]
    refine .elim _ hd hscrutinee hs
      (.of_forall_zip (by rw [List.length_map, hlen]) (forall_zip_map.2 fun p hp => ?_))
    rw [hdoms _ (List.mem_of_mem_tail (List.of_mem_zip hp).2)]
    exact ih p hp henv (hargs _ (List.of_mem_zip hp).1)
  | prim heq hite hlen _ ih =>
    have hargs := Term.forall_mem_subtermsAll.1 (List.forall_mem_cons.1 hann).2
    refine .prim heq hite (.of_forall_zip (by rw [List.length_replicate, hlen]) fun p hp => ?_)
    obtain ⟨hmem, hrep⟩ := List.of_mem_zip hp
    rw [List.eq_of_mem_replicate hrep]
    exact ih p.1 hmem henv (hargs _ hmem)
  | eq _ _ iha ihb =>
    have hargs := Term.forall_mem_subtermsAll.1 (List.forall_mem_cons.1 hann).2
    exact .eq (iha henv (hargs _ (by simp))) (ihb henv (hargs _ (by simp)))
  | ite _ _ _ ihc iht ihe =>
    have hargs := Term.forall_mem_subtermsAll.1 (List.forall_mem_cons.1 hann).2
    exact .ite (ihc henv (hargs _ (by simp))) (iht henv (hargs _ (by simp)))
      (ihe henv (hargs _ (by simp)))
  | tuple hlen _ ih =>
    have helems := Term.forall_mem_subtermsAll.1 (List.forall_mem_cons.1 hann).2
    exact .tuple (.of_forall_zip hlen fun p hp => ih p hp henv (helems _ (List.of_mem_zip hp).1))
  | proj h => exact absurd h id

end Discipline.Types

/-- An equation whose right-hand side can be used at every instance of its eliminator's
signature: it takes no tuple apart, whose size an instance may leave open, and no binder in it is
annotated with a type variable of the signature. -/
structure Equation.Portable (d : Equation) (e : Eliminator) : Prop where
  projection : d.rhs.hasProjection = false
  domains : ∀ w ∈ d.rhs.domains, ∀ x ∈ w.vars, x ∉ e.signature.vars

theorem Equation.Checked.inst_binderTypes {d : Equation} {e : Eliminator} {c : Constructor}
    {θ φ : Name → Ty} (h : ctx.Shaped)
    (hd : d.Checked ctx e c) (hθ : ∀ x ∈ e.signature.vars, θ x = φ x) :
    ∀ t ∈ e.binderTypes c, t.inst θ = t.inst φ := by
  obtain ⟨params, he⟩ := h.eliminator hd.eliminator
  obtain ⟨params', hc⟩ := h.constructor hd.constructor
  have hlen : params'.length = params.length := by
    obtain ⟨type, htype, harity⟩ := he.arity
    obtain ⟨type', htype', harity'⟩ := hc.arity
    rw [hd.owner, htype] at htype'
    cases htype'
    rw [harity, harity']
  rw [he.binderTypes_eq hc]
  refine List.forall_mem_append.2 ⟨List.forall_mem_map.2 fun field hfield => ?_, fun t ht => ?_⟩
  · rw [Ty.subst_eq_bind, Ty.inst, Ty.bind_bind, Ty.inst, Ty.bind_bind]
    refine Ty.bind_congr (fun y hy => ?_) fun _ _ => rfl
    obtain ⟨z, hyz, hfind⟩ := exists_find?_params hlen (hc.fields field hfield y (Ty.mem_vars.2 hy))
    rw [hfind]
    exact hθ z (he.mem_vars (List.of_mem_zip hyz).2)
  · refine Ty.bind_congr
      (fun y hy => hθ y (Ty.mem_vars.2 (Ty.mem_varOccurrences_iff.2 (.inl ⟨t, ?_, hy⟩)))) fun _ _ =>
        rfl
    exact List.mem_of_mem_tail ht

theorem Equation.Typed.obeys_strict {d : Equation} {e : Eliminator} {c : Constructor}
    (h : ctx.Shaped) (hd : d.Typed ctx e c)
    (hp : d.Portable e) : d.Obeys (.strict ctx) ctx e c := by
  classical
  refine { hd with type := fun θ => ?_ }
  -- an instance that leaves the annotations alone and is the same on the signature
  let φ (x : Name) : Ty := if x ∈ e.signature.vars then θ x else .var x
  have hθ : ∀ x ∈ e.signature.vars, θ x = φ x := fun x hx => (if_pos hx).symm
  have henv : TypeEnv.inst θ (Locals.type? (d.binders.zip (e.binderTypes c)).reverse) =
      TypeEnv.inst φ (Locals.type? (d.binders.zip (e.binderTypes c)).reverse) := by
    funext x
    refine Option.map_congr fun t ht => ?_
    obtain ⟨p, hfind, rfl⟩ := Option.map_eq_some_iff.1 ht
    have hmem := List.mem_reverse.1 (List.mem_of_find?_eq_some hfind)
    exact hd.inst_binderTypes h hθ p.2 (List.of_mem_zip hmem).2
  have hresult : e.result.inst θ = e.result.inst φ :=
    Ty.bind_congr (fun x hx => hθ x (Ty.mem_vars.2 (Ty.mem_varOccurrences_iff.2 (.inr hx))))
      fun _ _ => rfl
  have hproj := Term.hasProjection_eq_false_iff.1 hp.projection
  have htype : (Discipline.strict ctx).Types ctx _ d.rhs e.result :=
    hd.type.under (fun _ hw => ⟨rfl, hw⟩) fun s hs hs' => absurd (hproj s hs) (by rw [hs']; decide)
  have hdomains := Term.forall_mem_domains.1 hp.domains
  rw [henv, hresult]
  refine htype.inst φ fun s hs w hw d' ⟨heq, hwritten⟩ => ⟨?_, hwritten⟩
  subst heq
  exact (Ty.bind_eq_self (fun x hx => if_neg (hdomains s hs w hw x (Ty.mem_vars.2 hx))) fun _ _ =>
    rfl).symm

theorem Rules.Normalizes.ne_ann {rules : Rules} (h : rules.Normalizes t u) :
    ∀ s ∈ u.subterms, ∀ v w, s ≠ .ann v w := by
  rintro s hs v w rfl
  cases h.exposed_of_contracts _ hs v .erasure

namespace Checker

theorem hasType_of_normalize {fuel : Nat} (h : ctx.WellFormed) (htyped : ctx.EquationsTyped)
    (hportable : ∀ d e, .equation d ∈ ctx.entries → ctx.eliminator d.eliminator = .ok e →
      d.Portable e)
    (hproj : t.hasProjection = false) (ht : HasType ctx [] t ty)
    (hu : normalize ctx t fuel = .ok u) :
    HasType ctx [] u ty ∧ u.hasProjection = false := by
  have hproj := Term.hasProjection_eq_false_iff.1 hproj
  have hstrict : (Discipline.strict ctx).Types ctx (Locals.type? []) t ty :=
    ht.under (fun _ hw => ⟨rfl, hw⟩) fun s hs hs' => absurd (hproj s hs) (by rw [hs']; decide)
  have hobeys : ctx.EquationsObey (.strict ctx) := fun d hmem => by
    obtain ⟨e, c, hd⟩ := htyped d hmem
    exact ⟨e, c, hd.obeys_strict h.shaped (hportable d e hmem hd.eliminator)⟩
  have hnormalizes : (Rules.ofContext ctx).Normalizes t u := Evaluator.normalizes_of_normalize hu
  have hu := hstrict.normalizes (h.keeps_ofContext hobeys) hnormalizes
  exact ⟨hu.hasType rfl hnormalizes.ne_ann, hu.hasProjection_eq_false id⟩

/-- The checker accepts the normal form of what it accepts, at a type that has the one it
inferred as an instance. -/
theorem inferType_of_normalize {fuel : Nat} (h : ctx.Reachable)
    (hportable : ∀ d e, .equation d ∈ ctx.entries → ctx.eliminator d.eliminator = .ok e →
      d.Portable e)
    (hn : Numbered ctx t) (hsize : (infer ctx u).metavars ≤ UInt32.size)
    (hproj : t.hasProjection = false)
    (ht : inferType ctx t = .ok ty) (hu : normalize ctx t fuel = .ok u) :
    ∃ type ρ, inferType ctx u = .ok type ∧ ty = type.fill ρ := by
  have hwf := h.wellFormed
  have hinfer (τ : UInt32 → Ty) (hτ : Ty.Primitive τ) : ∃ type σ, inferType ctx u = .ok type ∧
      type.fill σ = ty.fill τ := by
    have htype := hasType_of_inferType hwf.shaped hn.term ht hτ
    obtain ⟨htype, hproj⟩ :=
      hasType_of_normalize hwf (hn.equationsTyped hwf) hportable hproj htype hu
    exact inferType_of_hasType hwf.shaped hproj hsize htype
  obtain ⟨type, -, htype, -⟩ := hinfer _ (Ty.primitive_const .int)
  obtain ⟨ρ, hρ⟩ : ∃ ρ, ty = type.fill ρ := Ty.exists_fill_of_primitive fun τ hτ => by
    obtain ⟨type', σ, htype', hσ⟩ := hinfer τ hτ
    cases htype.symm.trans htype'
    exact ⟨σ, hσ⟩
  exact ⟨type, ρ, htype, hρ⟩

end Checker

namespace Context

def endos (dom : Option Ty) : Block := [
  .type ⟨"Endo", 1⟩,
  .constructor
    ⟨"Pair", .arrow (.arrow (.var "a") (.var "a")) (.arrow (.var "a") (.const "Endo" [.var "a"])),
      "Endo"⟩,
  .eliminator ⟨"Again", .arrow (.const "Endo" [.var "a"]) (.const "Endo" [.var "a"]), "Endo", none⟩,
  .equation
    ⟨"Again", "Pair", ["f", "x"], .ctor "Pair"
      [.lam "y" dom (.app (.var "f") (.var "y")), .var "x"]⟩]

def again : Term := .elim "Again" (.ctor "Pair" [.lam "z" none (.var "z"), .int 1]) []

def pair (dom : Option Ty) : Term := .ctor "Pair" [.lam "y" dom (.var "y"), .int 1]

theorem endos_eq :
    (empty.commit (endos none)).2 = (empty.extended (endos none)).sealBlock 0 :=
  snd_commit (List.isEmpty_iff.1 (by decide +kernel))

theorem annotatedEndos_eq : (empty.commit (endos (some (.var "a")))).2 =
    (empty.extended (endos (some (.var "a")))).sealBlock 0 :=
  snd_commit (List.isEmpty_iff.1 (by decide +kernel))

theorem endos_reachable : (empty.commit (endos none)).2.Reachable :=
  .commit .empty
    (.of_stageAll .nil (show empty.stageAll [] (endos none) = .ok (endos none) from rfl))

theorem annotatedEndos_reachable : (empty.commit (endos (some (.var "a")))).2.Reachable :=
  .commit .empty
    (.of_stageAll .nil (show empty.stageAll [] (endos (some (.var "a"))) =
      .ok (endos (some (.var "a"))) from rfl))

theorem eq_of_mem_endos (dom : Option Ty) {d : Equation} (h : .equation d ∈ endos dom) :
    d =
      ⟨"Again", "Pair", ["f", "x"], .ctor "Pair"
        [.lam "y" dom (.app (.var "f") (.var "y")), .var "x"]⟩ := by
  simpa [endos] using h

theorem equation_endos {d : Equation} (h : .equation d ∈ (empty.commit (endos none)).2.entries) :
    d = ⟨"Again", "Pair", ["f", "x"], .ctor "Pair"
      [.lam "y" none (.app (.var "f") (.var "y")), .var "x"]⟩ := by
  rw [endos_eq] at h
  exact eq_of_mem_endos none h

theorem inferType_again :
    inferType (empty.commit (endos none)).2 again = .ok (.const "Endo" [.prim .int]) := by
  rw [endos_eq]
  rfl

theorem numbered_again : Numbered (empty.commit (endos none)).2 again := by
  refine Numbered.of_usage endos_reachable.wellFormed inferType_again (by decide +kernel)
    fun d hmem => ?_
  obtain rfl := equation_endos hmem
  decide +kernel

end Context

namespace Checker

open Context

theorem again_keeps_type :
    normalize (empty.commit (endos none)).2 again 10 = .ok (pair none) ∧
      ∃ type ρ, inferType (empty.commit (endos none)).2 (pair none) = .ok type ∧
      .const "Endo" [.prim .int] = type.fill ρ := by
  have hu : normalize (empty.commit (endos none)).2 again 10 = .ok (pair none) := by
    rw [endos_eq]
    cbv
  refine ⟨hu, inferType_of_normalize endos_reachable (fun d e hmem _ => ?_) numbered_again
    (by decide +kernel) rfl inferType_again hu⟩
  obtain rfl := equation_endos hmem
  exact ⟨rfl, List.forall_mem_nil _⟩

/-- Not so if a binder of the equation is annotated with the type variable: it is rigid in the
normal form, where the instance is integers. -/
theorem again_loses_type :
    (empty.commit (endos (some (.var "a")))).2.Reachable ∧
      (∀ d, .equation d ∈ (empty.commit (endos (some (.var "a")))).2.entries →
        d.rhs.hasProjection = false) ∧
      again.free = [] ∧ again.hasProjection = false ∧
      inferType (empty.commit (endos (some (.var "a")))).2 again =
        .ok (.const "Endo" [.prim .int]) ∧
      normalize (empty.commit (endos (some (.var "a")))).2 again 10 = .ok (pair (some (.var "a"))) ∧
      ¬∃ type ρ, inferType (empty.commit (endos (some (.var "a")))).2 (pair (some (.var "a"))) =
        .ok type ∧
        .const "Endo" [.prim .int] = type.fill ρ := by
  have hu : normalize (empty.commit (endos (some (.var "a")))).2 again 10 =
      .ok (pair (some (.var "a"))) := by
    rw [annotatedEndos_eq]
    cbv
  have hrejected : inferType (empty.commit (endos (some (.var "a")))).2 (pair (some (.var "a"))) =
      .error (.type (.mismatch (.int 1) (.var "a") (.prim .int))) := by
    rw [annotatedEndos_eq]
    rfl
  have ht : inferType (empty.commit (endos (some (.var "a")))).2 again =
      .ok (.const "Endo" [.prim .int]) := by
    rw [annotatedEndos_eq]
    rfl
  refine ⟨annotatedEndos_reachable, fun d hmem => ?_, rfl, rfl, ht, hu, ?_⟩
  · rw [annotatedEndos_eq] at hmem
    obtain rfl := eq_of_mem_endos (some (.var "a")) hmem
    rfl
  · rintro ⟨type, ρ, htype, -⟩
    cases hrejected.symm.trans htype

end Checker

end ClosedTypes
