import ClosedTypes.Proofs.Typing.Runs
import ClosedTypes.Proofs.Typing.Unifiers
/-!
Runs along a substitution that fills the metavariables with the types that the terms have by the
rules. A fresh metavariable extends it, every unification of types that come to the same goes its
way, and so the run comes to an answer.
-/

namespace ClosedTypes.Checker

open Check (Makes)

variable {α β : Type} {ctx : Context} {c c' c'' : Checker} {σ σ' σ'' : UInt32 → Ty} {n : Nat}
  {a : α} {t u type : Ty}

def Agrees (n : Nat) (σ σ' : UInt32 → Ty) : Prop := ∀ i : UInt32, i.toNat < n → σ' i = σ i

theorem Agrees.fill (h : Agrees n σ σ') (ht : t.Within ctx n) : t.fill σ' = t.fill σ :=
  Ty.bind_congr (fun _ _ => rfl) fun i hi => h i (ht.bounded i hi)

structure Continues (c : Checker) (σ : UInt32 → Ty) (c' : Checker) (σ' : UInt32 → Ty) : Prop where
  grows : c.Grows c'
  agrees : Agrees c.solutions.size σ σ'

namespace Continues

theorem refl (c : Checker) (σ : UInt32 → Ty) : Continues c σ c σ := ⟨.refl c, fun _ _ => rfl⟩

theorem trans (h : Continues c σ c' σ') (h' : Continues c' σ' c'' σ'') : Continues c σ c'' σ'' :=
  ⟨h.grows.trans h'.grows, fun i hi => (h'.agrees i (Nat.lt_of_lt_of_le hi h.grows.size)).trans
    (h.agrees i hi)⟩

theorem within (h : Continues c σ c' σ') (ht : t.Within ctx c.solutions.size) :
    t.Within ctx c'.solutions.size :=
  ht.mono h.grows.size

theorem fill (h : Continues c σ c' σ') (ht : t.Within ctx c.solutions.size) :
    t.fill σ' = t.fill σ := h.agrees.fill ht

theorem map_fill {ts : List Ty} (h : Continues c σ c' σ')
    (hts : ∀ t ∈ ts, t.Within ctx c.solutions.size) :
    ts.map (Ty.fill σ') = ts.map (Ty.fill σ) := List.map_congr_left fun t ht => h.fill (hts t ht)

end Continues

/-- The checker is valid, and `σ` fills its metavariables as far as it has come. -/
structure Ready (ctx : Context) (σ : UInt32 → Ty) (c : Checker) : Prop where
  valid : c.Valid ctx
  realizes : c.Realizes σ
  deferred : ∀ p ∈ c.equalities, p.2.Within ctx c.solutions.size

theorem Ready.congr (h : Ready ctx σ c) (hσ : Agrees c.solutions.size σ σ') : Ready ctx σ' c where
  valid := h.valid
  deferred := h.deferred
  realizes.satisfies i t hs := by
    rw [hσ i (Solutions.toNat_lt_of_solution? hs), h.realizes.satisfies i t hs,
      hσ.fill (h.valid.solutions i t hs)]
  realizes.equalities p hp := by
    rw [hσ.fill (h.deferred p hp)]
    exact h.realizes.equalities p hp

theorem Ready.unify (h : Ready ctx σ c) (ht : t.Within ctx c.solutions.size)
    (hu : u.Within ctx c.solutions.size)
    (heq : t.fill σ = u.fill σ) :
    ∃ c', Answers (unify t u) c true c' ∧ Continues c σ c' σ ∧ Ready ctx σ c' := by
  have hbound (t : Ty) (i : UInt32) (ht : t.Within ctx c.solutions.size)
      (hi : t.mentionsMetavar i = true) := ht.bounded i hi
  obtain ⟨hr, hsat⟩ :=
    Solutions.solved_unify (Ty.hereditary_within ctx _) hbound h.valid.acyclic h.valid.solutions
    h.realizes.satisfies ht hu heq
  have hrun : Answers (Checker.unify t u) c true _ := answers_unify.2 ⟨hr, rfl⟩
  obtain ⟨hg, hv, hsize, -⟩ := h.valid.unify ht hu hrun
  exact ⟨_, hrun, ⟨hg, fun _ _ => rfl⟩, hv, ⟨hsat, h.realizes.equalities⟩, fun p hp =>
    hsize ▸ h.deferred p hp⟩

/-- Unless it takes too many metavariables, the run comes to an answer with `Q`. -/
def Completes (ctx : Context) (σ : UInt32 → Ty) (c : Checker) (m : Check α)
    (Q : α → Checker → (UInt32 → Ty) → Prop) : Prop :=
  (m.apply c).2.solutions.size ≤ UInt32.size →
    ∃ a c' σ', Answers m c a c' ∧ Continues c σ c' σ' ∧ Ready ctx σ' c' ∧ Q a c' σ'

def Delivers (ctx : Context) (type : Ty) (t : Ty) (c : Checker) (σ : UInt32 → Ty) : Prop :=
  t.Within ctx c.solutions.size ∧ t.fill σ = type

theorem Delivers.later (h : Delivers ctx type t c σ) (hc : Continues c σ c' σ') :
    Delivers ctx type t c' σ' :=
  ⟨hc.within h.1, (hc.fill h.1).trans h.2⟩

section

variable {k : Check α} {f : α → Check β} {Q : α → Checker → (UInt32 → Ty) → Prop}
  {R : β → Checker → (UInt32 → Ty) → Prop}

theorem Ready.pure (h : Ready ctx σ c) (hQ : Q a c σ) : Completes ctx σ c (Pure.pure a) Q :=
  fun _ =>
  ⟨a, c, σ, answers_pure.2 ⟨rfl, rfl⟩, .refl c σ, h, hQ⟩

theorem Completes.bind [hf : ∀ a, Makes .growth (f a)] (hm : Completes ctx σ c k Q)
    (h : ∀ a c' σ', Continues c σ c' σ' → Ready ctx σ' c' → Q a c' σ' →
      Completes ctx σ' c' (f a) R) :
    Completes ctx σ c (k >>= f) R := by
  intro hsize
  have hfits : (k.apply c).2.solutions.size ≤ UInt32.size := by
    rcases hrun : k.apply c with ⟨e | a, c₁⟩
    · rwa [apply_bind_of_error hrun] at hsize
    · rw [apply_bind_of_ok hrun] at hsize
      exact ((hf a).makes c₁).size.trans hsize
  obtain ⟨a, c', σ', ha, hc, hr, hq⟩ := hm hfits
  rw [apply_bind_of_ok ha] at hsize
  obtain ⟨b, c'', σ'', hb, hc', hr', hR⟩ := h a c' σ' hc hr hq hsize
  exact ⟨b, c'', σ'', answers_bind.2 ⟨a, c', ha, hb⟩, hc.trans hc', hr', hR⟩

theorem Completes.step (ha : Answers k c a c') (hc : Continues c σ c' σ')
    (h : Completes ctx σ' c' (f a) R) :
    Completes ctx σ c (k >>= f) R := by
  intro hsize
  rw [apply_bind_of_ok ha] at hsize
  obtain ⟨b, c'', σ'', hb, hc', hr', hR⟩ := h hsize
  exact ⟨b, c'', σ'', answers_bind.2 ⟨a, c', ha, hb⟩, hc.trans hc', hr', hR⟩

theorem Completes.look (ha : Answers k c a c) (h : Completes ctx σ c (f a) R) :
    Completes ctx σ c (k >>= f) R :=
  .step ha (.refl c σ) h

theorem Ready.unify_bind {k k' : Check α} (h : Ready ctx σ c) (ht : t.Within ctx c.solutions.size)
    (hu : u.Within ctx c.solutions.size) (heq : t.fill σ = u.fill σ)
    (next : ∀ c', Continues c σ c' σ → Ready ctx σ c' → Completes ctx σ c' k Q) :
    Completes ctx σ c (Checker.unify t u >>= fun r => if r = true then k else k') Q := by
  obtain ⟨c', hrun, hc, hr⟩ := h.unify ht hu heq
  refine .step hrun hc ?_
  rw [if_pos rfl]
  exact next c' hc hr

end

theorem Ready.fresh (h : Ready ctx σ c) (type : Ty) :
    Completes ctx σ c fresh (Delivers ctx type) := by
  intro hsize
  have hrun : Answers Checker.fresh c _ _ := answers_fresh.2 ⟨rfl, rfl⟩
  obtain ⟨hg, hv, hsize', -, hw⟩ := h.valid.fresh hrun
  have hfits : c.solutions.size + 1 ≤ UInt32.size := Nat.le_trans (Nat.le_of_eq hsize'.symm) hsize
  have hid : (UInt32.ofNat c.solutions.size).toNat = c.solutions.size :=
    UInt32.toNat_ofNat_of_lt' hfits
  have hagrees : Agrees c.solutions.size σ (Function.update σ (.ofNat c.solutions.size) type) :=
    fun i hi =>
    Function.update_of_ne (fun e => by rw [e, hid] at hi; exact Nat.lt_irrefl _ hi) _ _
  have hr := h.congr hagrees
  refine ⟨_, _, _, hrun, ⟨hg, hagrees⟩,
    ⟨hv, ⟨fun i t hs => ?_, hr.realizes.equalities⟩, fun p hp => ?_⟩, hw,
    Function.update_self ..⟩
  · rw [solution?_of_answers_fresh hrun] at hs
    exact hr.realizes.satisfies i t hs
  · exact (h.deferred p hp).mono hg.size

theorem Completes.withLocal {x : Name} {k : Check Ty}
    (h : Completes ctx σ { c with locals := (x, t) :: c.locals } k (Delivers ctx type)) :
    Completes ctx σ c (withLocal x t k) (Delivers ctx type) := by
  intro hsize
  obtain ⟨u, c', σ', hrun, hc, hr, hd⟩ := h hsize
  exact ⟨u, _, σ', answers_withLocal.2 ⟨c', hrun, rfl⟩, ⟨hc.grows.pop, hc.agrees⟩,
    ⟨hr.valid.pop, ⟨hr.realizes.satisfies, hr.realizes.equalities⟩, hr.deferred⟩, hd⟩

theorem Ready.defer {s : Term} {p : Prim} (h : Ready ctx σ c) (ht : t.Within ctx c.solutions.size)
    (hp : t.fill σ = .prim p) :
    Ready ctx σ { c with equalities := c.equalities ++ [(s, t)] } where
  valid := ⟨h.valid.acyclic, h.valid.solutions, h.valid.locals⟩
  realizes :=
    ⟨h.realizes.satisfies, List.forall_mem_append.2
      ⟨h.realizes.equalities, List.forall_mem_singleton.2 ⟨p, hp⟩⟩⟩
  deferred := List.forall_mem_append.2 ⟨h.deferred, List.forall_mem_singleton.2 ht⟩

theorem Ready.push (h : Ready ctx σ c) (x : Name) (ht : t.Within ctx c.solutions.size) :
    Ready ctx σ { c with locals := (x, t) :: c.locals } :=
  ⟨h.valid.push x ht, ⟨h.realizes.satisfies, h.realizes.equalities⟩, h.deferred⟩

theorem Completes.adapt {k : Check α} {f : Error → Error} {Q : α → Checker → (UInt32 → Ty) → Prop}
    (h : Completes ctx σ c k Q) :
    Completes ctx σ c (k.adapt f) Q := fun hsize => by
  obtain ⟨a, c', σ', hrun, h⟩ := h hsize
  exact ⟨a, c', σ', answers_adapt.2 hrun, h⟩

def Mode.Expects (σ : UInt32 → Ty) (type : Ty) : Mode → Prop
  | .infer => True
  | .check expected => expected.fill σ = type

theorem Continues.expects {mode : Mode} (h : Continues c σ c' σ')
    (hw : mode.Within ctx c.solutions.size) (hm : mode.Expects σ type) :
    mode.Expects σ' type := by
  cases mode with
  | infer => trivial
  | check expected => exact (h.fill hw).trans hm

variable {mode : Mode} {s : Term}

theorem Ready.settle (h : Ready ctx σ c) (ht : t.Within ctx c.solutions.size)
    (heq : t.fill σ = type)
    (hw : mode.Within ctx c.solutions.size) (hm : mode.Expects σ type) :
    Completes ctx σ c (settle s t mode) (Delivers ctx type) := by
  cases mode with
  | infer => exact h.pure ⟨ht, heq⟩
  | check expected =>
    exact h.unify_bind ht hw (heq.trans hm.symm) fun c' hc hr => hr.pure ⟨hc.within ht, heq⟩

theorem Continues.settle (hc : Continues c σ c' σ') (h : Ready ctx σ' c')
    (ht : Delivers ctx type t c' σ')
    (hw : mode.Within ctx c.solutions.size) (hm : mode.Expects σ type) :
    Completes ctx σ' c' (Checker.settle s t mode) (Delivers ctx type) :=
  h.settle ht.1 ht.2 (hw.mono hc.grows.size) (hc.expects hw hm)

theorem arrow_or_metavar_of_fill {d co : Ty} (h : t.fill σ = .arrow d co) :
    (∃ d' co', t = .arrow d' co') ∨ ∃ i, t = .metavar i := by
  cases t with
  | arrow d' co' => exact .inl ⟨d', co', rfl⟩
  | metavar i => exact .inr ⟨i, rfl⟩
  | _ => simp at h

theorem prim_or_metavar_of_fill {p : Prim} (h : t.fill σ = .prim p) :
    t = .prim p ∨ ∃ i, t = .metavar i := by
  cases t with
  | prim q => exact .inl h
  | metavar i => exact .inr ⟨i, rfl⟩
  | _ => simp at h

theorem Ready.functionType {d co : Ty} (h : Ready ctx σ c) (ht : t.Within ctx c.solutions.size)
    (heq : t.fill σ = .arrow d co) :
    Completes ctx σ c (functionType s t) fun r c' σ' => Delivers ctx d r.1 c' σ' ∧
    Delivers ctx co r.2 c' σ' := by
  have hw : (c.solutions.resolve t).Within ctx c.solutions.size := h.valid.solutions.resolve ht
  rw [← h.realizes.satisfies.fill_resolve t] at heq
  refine .look (answers_resolve.2 ⟨rfl, rfl⟩) ?_
  rcases arrow_or_metavar_of_fill heq with ⟨d', co', hr⟩ | ⟨i, hr⟩ <;> rw [hr] at heq hw ⊢
  · obtain ⟨hd, hco⟩ := Ty.within_arrow.1 hw
    obtain ⟨heqd, heqco⟩ := Ty.arrow.inj heq
    exact h.pure ⟨⟨hd, heqd⟩, hco, heqco⟩
  · refine (h.fresh d).bind fun d' c₁ σ₁ hc₁ h₁ hd => (h₁.fresh co).bind fun co' c₂ σ₂ hc₂ h₂ hco =>
      ?_
    have hd₂ := hd.later hc₂
    have harrow : (Ty.arrow d' co').fill σ₂ = .arrow d co := congrArg₂ Ty.arrow hd₂.2 hco.2
    have hi : (Ty.metavar i).fill σ₂ = .arrow d co := ((hc₁.trans hc₂).fill hw).trans heq
    obtain ⟨c₃, hrun, hc₃, h₃⟩ :=
      h₂.unify ((hc₁.trans hc₂).within hw) (Ty.within_arrow.2 ⟨hd₂.1, hco.1⟩) (hi.trans harrow.symm)
    exact .step hrun hc₃ (h₃.pure ⟨hd₂.later hc₃, hco.later hc₃⟩)

theorem Ready.freshAll {xs : List Name} (h : Ready ctx σ c) (θ : Name → Ty) :
    Completes ctx σ c (freshAll xs) fun bs c' σ' =>
      bs.map Prod.fst = xs ∧ ∀ b ∈ bs, Delivers ctx (θ b.1) b.2 c' σ' := by
  induction xs generalizing c σ with
  | nil => exact h.pure ⟨rfl, nofun⟩
  | cons x xs ih =>
    refine (h.fresh (θ x)).bind fun t c₁ σ₁ hc₁ h₁ ht =>
      (ih h₁).bind fun bs c₂ σ₂ hc₂ h₂ ⟨hfst, hbs⟩ => ?_
    exact h₂.pure ⟨congrArg (x :: ·) hfst, List.forall_mem_cons.2 ⟨ht.later hc₂, hbs⟩⟩

structure Copies (ctx : Context) (signature : Ty) (m : Index Name Ty) (t : Ty) (c : Checker)
    (σ : UInt32 → Ty) : Prop where
  delivers : Delivers ctx (signature.subst m) t c σ
  copy : ∃ copy, OntoMetavars copy ∧ t = signature.subst copy

theorem Ready.freshCopy {signature : Ty} (h : Ready ctx σ c)
    (hw : checkWritten ctx signature = .ok ()) (m : Index Name Ty) :
    Completes ctx σ c (freshCopy signature) (Copies ctx signature m) := by
  intro hsize
  have hfill : Completes ctx σ c (Checker.freshCopy signature) fun t _ σ' =>
      t.fill σ' = signature.subst m := by
    refine (h.freshAll fun x => (Ty.var x).subst m).bind fun bs c' σ' _ h' ⟨hfst, hbs⟩ => h'.pure ?_
    rw [Ty.subst_eq_bind, Ty.subst_eq_bind, Ty.fill, Ty.bind_bind]
    refine Ty.bind_congr (fun x hx => ?_) fun i hi => ?_
    · cases hfind : (Index.ofList bs).find? x with
      | none => exact absurd (hfst ▸ Ty.mem_vars.2 hx) (Index.find?_ofList_eq_none_iff.1 hfind)
      | some t => exact ((hbs _ (Index.mem_of_find?_ofList hfind)).2).trans (Ty.subst_eq_bind _ m)
    · rw [(checkWritten_eq_ok_iff.1 hw).2 i] at hi
      cases hi
  obtain ⟨t, c', σ', hrun, hc, h', ht⟩ := hfill hsize
  obtain ⟨-, -, hwithin, copy, hcopy, honto⟩ := h.valid.freshCopy hw hrun
  exact ⟨t, c', σ', hrun, hc, h', ⟨hwithin, ht⟩, copy, honto, hcopy⟩

theorem arrows_inj {ds ds' : List Ty} (hlen : ds.length = ds'.length)
    (h : Ty.arrows ds t = Ty.arrows ds' u) : ds = ds' ∧ t = u := by
  induction ds generalizing ds' with
  | nil =>
    cases List.length_eq_zero_iff.1 hlen.symm
    exact ⟨rfl, h⟩
  | cons d ds ih =>
    obtain ⟨d', ds', rfl⟩ := List.exists_cons_of_length_eq_add_one hlen.symm
    obtain ⟨hd, h⟩ := Ty.arrow.inj h
    obtain ⟨hds, hu⟩ := ih (Nat.succ.inj hlen) h
    exact ⟨congrArg₂ List.cons hd hds, hu⟩

theorem Copies.telescope {signature : Ty} {m : Index Name Ty} (h : Copies ctx signature m t c σ) :
    t.doms.map (Ty.fill σ) = signature.doms.map (·.subst m) ∧
    t.result.fill σ = signature.result.subst m := by
  obtain ⟨copy, honto, ht⟩ := h.copy
  have hlen : t.doms.length = signature.doms.length := by
    rw [ht, Ty.doms, honto.telescope, List.length_map]
  refine arrows_inj (by simp [hlen]) ?_
  have heq := h.delivers.2
  rw [← Ty.arrows_doms_result t, ← Ty.arrows_doms_result signature, Ty.subst_eq_bind,
    Ty.fill, Ty.bind_arrows, Ty.bind_arrows] at heq
  simpa only [Ty.subst_eq_bind] using heq

end ClosedTypes.Checker
