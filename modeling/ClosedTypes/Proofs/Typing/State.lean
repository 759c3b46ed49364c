import ClosedTypes.Proofs.Context.Extension
import ClosedTypes.Proofs.Index
import ClosedTypes.Proofs.Typing.Answers
import ClosedTypes.Proofs.Typing.Unification
/-!
What a run of the checker knows at each moment, and what the small steps make of it. Knowledge only
grows, and what has been found out by the end holds at the end.
-/

namespace ClosedTypes

variable {ctx : Context} {n m : Nat} {t u : Ty}

structure Ty.Within (ctx : Context) (n : Nat) (t : Ty) : Prop where
  formed : t.Formed ctx
  bounded : ∀ i, t.mentionsMetavar i = true → i.toNat < n

namespace Ty

theorem Within.mono (h : t.Within ctx n) (hnm : n ≤ m) : t.Within ctx m :=
  ⟨h.formed, fun i hi => Nat.lt_of_lt_of_le (h.bounded i hi) hnm⟩

@[simp] theorem within_prim (p : Prim) : (prim p).Within ctx n := ⟨formed_prim p, nofun⟩

theorem within_arrow {d c : Ty} : (arrow d c).Within ctx n ↔ d.Within ctx n ∧ c.Within ctx n := by
  constructor
  · exact fun h => ⟨⟨h.formed.1, fun i hi => h.bounded i (by simp [hi])⟩,
      ⟨h.formed.2, fun i hi => h.bounded i (by simp [hi])⟩⟩
  · intro ⟨hd, hc⟩
    refine ⟨⟨hd.formed, hc.formed⟩, fun i hi => ?_⟩
    rcases Bool.or_eq_true _ _ |>.mp ((mentionsMetavar_arrow d c).symm.trans hi) with hi | hi
    · exact hd.bounded i hi
    · exact hc.bounded i hi

theorem within_tuple {elems : List Ty} :
    (tuple elems).Within ctx n ↔ ∀ t ∈ elems, t.Within ctx n := by
  constructor
  · exact fun h t ht =>
      ⟨formed_tuple.1 h.formed t ht, fun i hi => h.bounded i (by simpa using ⟨t, ht, hi⟩)⟩
  · refine fun h => ⟨formed_tuple.2 fun t ht => (h t ht).formed, fun i hi => ?_⟩
    simp only [mentionsMetavar_tuple, List.any_eq_true] at hi
    obtain ⟨t, ht, hi⟩ := hi
    exact (h t ht).bounded i hi

theorem within_arrows {ds : List Ty} {c : Ty} :
    (arrows ds c).Within ctx n ↔ (∀ d ∈ ds, d.Within ctx n) ∧ c.Within ctx n := by
  induction ds with
  | nil => simp [arrows]
  | cons d ds ih =>
    rw [List.forall_mem_cons, and_assoc, ← ih]
    exact within_arrow

theorem Within.telescope (h : t.Within ctx n) :
    (∀ d ∈ t.doms, d.Within ctx n) ∧ t.result.Within ctx n := by
  rw [← arrows_doms_result t] at h
  exact within_arrows.1 h

theorem hereditary_within (ctx : Context) (n : Nat) : Solutions.Hereditary (Within ctx n) where
  const {c args} h t ht :=
    ⟨(formed_const.1 h.formed).2 t ht, fun i hi => h.bounded i (by simpa using ⟨t, ht, hi⟩)⟩
  arrow h := within_arrow.1 h
  tuple h := within_tuple.1 h

theorem Within.bind {θ : Name → Ty} {σ : UInt32 → Ty} (h : t.Formed ctx)
    (hv : ∀ x ∈ t.varOccurrences, (θ x).Within ctx n)
    (hm : ∀ i, t.mentionsMetavar i = true → (σ i).Within ctx n) : (t.bind θ σ).Within ctx n := by
  refine ⟨h.bind (fun x hx => (hv x hx).formed) fun i hi => (hm i hi).formed, fun i hi => ?_⟩
  rcases mentionsMetavar_bind.1 hi with ⟨x, hx, hi⟩ | ⟨j, hj, hi⟩
  · exact (hv x hx).bounded i hi
  · exact (hm j hj).bounded i hi

theorem within_of_checkWritten (h : Checker.checkWritten ctx t = .ok ()) : t.Within ctx n := by
  obtain ⟨hf, hm⟩ := Checker.checkWritten_eq_ok_iff.1 h
  exact ⟨hf, fun i hi => by simp [hm i] at hi⟩

end Ty

theorem Solutions.All.zonk {s : Solutions} (h : s.All (Ty.Within ctx n)) (ht : t.Within ctx n) :
    (s.zonk t).Within ctx n := by
  have within (k : Nat) : ∀ t : Ty, t.Within ctx n → (s.zonkWithin k t).Within ctx n := by
    induction k with
    | zero => exact fun _ ht => ht
    | succ k ih =>
      intro t ht
      rw [Solutions.zonkWithin_succ_eq_fill]
      refine Ty.Within.bind ht.formed (fun x _ => ⟨Ty.formed_var x, nofun⟩) fun i hi => ?_
      cases hs : s.solution? i with
      | none => exact ⟨Ty.formed_metavar i, fun j hj => by simp at hj; exact hj ▸ ht.bounded i hi⟩
      | some u => exact ih u (h i u hs)
  exact within _ t ht

namespace Checker

open Solutions (Satisfies)

variable {c c' c'' : Checker} {r : Bool} {σ : UInt32 → Ty}

structure Grows (c c' : Checker) : Prop where
  locals : c'.locals = c.locals
  size : c.solutions.size ≤ c'.solutions.size
  kept : ∀ i t, c.solutions.solution? i = some t → c'.solutions.solution? i = some t
  equalities : c.equalities ⊆ c'.equalities

theorem Grows.refl (c : Checker) : c.Grows c := ⟨rfl, Nat.le_refl _, fun _ _ h => h, fun _ h => h⟩

theorem Grows.trans (h : c.Grows c') (h' : c'.Grows c'') : c.Grows c'' :=
  ⟨h'.locals.trans h.locals, Nat.le_trans h.size h'.size, fun i t hs => h'.kept i t (h.kept i t hs),
    fun _ hp => h'.equalities (h.equalities hp)⟩

/-- The solutions have no cycle, and all types at hand are formed and made of metavariables that
exist. -/
structure Valid (ctx : Context) (c : Checker) : Prop where
  acyclic : c.solutions.Acyclic
  solutions : c.solutions.All (Ty.Within ctx c.solutions.size)
  locals : ∀ p ∈ c.locals, p.2.Within ctx c.solutions.size

/-- `σ` agrees with the solutions, and at `σ` the operands that were put off have primitive
types. -/
structure Realizes (σ : UInt32 → Ty) (c : Checker) : Prop where
  satisfies : Satisfies σ c.solutions
  equalities : ∀ p ∈ c.equalities, ∃ q, p.2.fill σ = .prim q

theorem Realizes.of_grows (h : c'.Realizes σ) (hg : c.Grows c') : c.Realizes σ :=
  ⟨fun i t hs => h.satisfies i t (hg.kept i t hs), fun p hp => h.equalities p (hg.equalities hp)⟩

theorem valid_initial (ctx : Context) : initial.Valid ctx where
  acyclic :=
    ⟨fun _ => 0, fun i t _ hs => by simp [initial, Solutions.solution?, Solutions.empty] at hs⟩
  solutions i t hs := by simp [initial, Solutions.solution?, Solutions.empty] at hs
  locals := nofun

theorem Valid.unify (hv : c.Valid ctx) (ht : t.Within ctx c.solutions.size)
    (hu : u.Within ctx c.solutions.size) (h : Answers (unify t u) c r c') :
    c.Grows c' ∧ c'.Valid ctx ∧ c'.solutions.size = c.solutions.size ∧
      (r = true → ∀ σ, c'.Realizes σ → t.fill σ = u.fill σ) := by
  obtain ⟨rfl, rfl⟩ := answers_unify.1 h
  have spec := Solutions.unified_unify (Ty.hereditary_within ctx _) hv.acyclic hv.solutions ht hu
  have hsize : (c.solutions.unify t u).2.size = c.solutions.size := spec.ext.size
  refine ⟨⟨rfl, Nat.le_of_eq hsize.symm, spec.ext.kept, fun _ h => h⟩,
    ⟨spec.acyclic, ?_, ?_⟩, hsize, fun hr σ hσ => spec.equal hr σ hσ.satisfies⟩
  · simpa only [hsize] using spec.all
  · simpa only [hsize] using hv.locals

theorem Valid.fresh (hv : c.Valid ctx) (h : Answers fresh c t c') :
    c.Grows c' ∧ c'.Valid ctx ∧ c'.solutions.size = c.solutions.size + 1 ∧
    t = .metavar (.ofNat c.solutions.size) ∧
      t.Within ctx c'.solutions.size := by
  obtain ⟨rfl, rfl⟩ := answers_fresh.1 h
  have hsize : c.solutions.fresh.2.size = c.solutions.size + 1 := Solutions.size_fresh _
  have hle : c.solutions.size ≤ c.solutions.fresh.2.size := by omega
  refine ⟨⟨rfl, hle, fun i t hs => ?_, fun _ h => h⟩,
    ⟨hv.acyclic.fresh, fun i t hs => ?_, fun p hp => ?_⟩, hsize, rfl,
    ⟨trivial, fun i hi => ?_⟩⟩
  · rw [Solutions.solution?_fresh]
    exact hs
  · exact (hv.solutions.fresh i t hs).mono hle
  · exact (hv.locals p hp).mono hle
  · have : UInt32.ofNat c.solutions.size = i := by simpa [Solutions.fresh] using hi
    subst this
    have hmod : (UInt32.ofNat c.solutions.size).toNat = c.solutions.size % UInt32.size :=
      UInt32.toNat_ofNat'
    have := Nat.mod_le c.solutions.size UInt32.size
    change (UInt32.ofNat c.solutions.size).toNat < c.solutions.fresh.2.size
    omega

theorem solution?_of_answers_fresh (h : Answers fresh c t c') (i : UInt32) :
    c'.solutions.solution? i = c.solutions.solution? i := by
  obtain ⟨-, rfl⟩ := answers_fresh.1 h
  exact Solutions.solution?_fresh _ i

theorem Valid.zonk (hv : c.Valid ctx) (ht : t.Within ctx c.solutions.size) :
    (c.solutions.zonk t).Within ctx c.solutions.size :=
  hv.solutions.zonk ht

theorem Realizes.fill_zonk (h : c.Realizes σ) (t : Ty) : (c.solutions.zonk t).fill σ = t.fill σ :=
  h.satisfies.fill_zonk t

theorem Valid.push (hv : c.Valid ctx) (x : Name) (ht : t.Within ctx c.solutions.size) :
    Valid ctx { c with locals := (x, t) :: c.locals } :=
  ⟨hv.acyclic, hv.solutions, List.forall_mem_cons.2 ⟨ht, hv.locals⟩⟩

theorem Valid.pop (hv : c.Valid ctx) : Valid ctx { c with locals := c.locals.tail } :=
  ⟨hv.acyclic, hv.solutions, fun p hp => hv.locals p (List.mem_of_mem_tail hp)⟩

theorem Grows.pop {x : Name} (h : Grows { c with locals := (x, t) :: c.locals } c') :
    c.Grows { c' with locals := c'.locals.tail } :=
  ⟨congrArg List.tail h.locals, h.size, h.kept, h.equalities⟩

theorem Realizes.unpop {locals : List (Name × Ty)} (h : Realizes σ { c with locals }) :
    c.Realizes σ := ⟨h.satisfies, h.equalities⟩

theorem Valid.functionType {f : Term} {d co : Ty} (hv : c.Valid ctx)
    (ht : t.Within ctx c.solutions.size) (h : Answers (functionType f t) c (d, co) c') :
    c.Grows c' ∧ c'.Valid ctx ∧ d.Within ctx c'.solutions.size ∧ co.Within ctx c'.solutions.size ∧
      (c'.solutions.size ≤ UInt32.size → ∀ σ, c'.Realizes σ →
        t.fill σ = .arrow (d.fill σ) (co.fill σ)) := by
  have hwithin : (c.solutions.resolve t).Within ctx c.solutions.size := hv.solutions.resolve ht
  rcases answers_functionType.1 h with ⟨hr, rfl⟩ | ⟨i, c₁, c₂, r, hr, hd, hco, hu⟩
  · rw [hr, Ty.within_arrow] at hwithin
    refine ⟨.refl c, hv, hwithin.1, hwithin.2, fun _ σ hσ => ?_⟩
    rw [← hσ.satisfies.fill_resolve t, hr]
    rfl
  · obtain ⟨hg₁, hv₁, hs₁, hdeq, hdw⟩ := hv.fresh hd
    obtain ⟨hg₂, hv₂, hs₂, hceq, hcw⟩ := hv₁.fresh hco
    have hiw : (Ty.metavar i).Within ctx c₂.solutions.size :=
      (hr ▸ hwithin).mono (hg₁.trans hg₂).size
    obtain ⟨hg₃, hv₃, hs₃, heq⟩ := hv₂.unify hiw (Ty.within_arrow.2 ⟨hdw.mono hg₂.size, hcw⟩) hu
    have hgrows := (hg₁.trans hg₂).trans hg₃
    refine ⟨hgrows, hv₃, hdw.mono (hg₂.trans hg₃).size, hcw.mono hg₃.size, fun hsize σ hσ => ?_⟩
    -- as long as ids do not wrap around, the two fresh metavariables are open and others than `i`
    have hi : i.toNat < c.solutions.size := (hr ▸ hwithin).bounded i (by simp)
    have hopen : c.solutions.solution? i = none := by
      have := hv.acyclic.isSolved_resolve t
      rw [hr] at this
      exact Solutions.isSolved_metavar_eq_false_iff.1 this
    have hsolution (k : UInt32) : c₂.solutions.solution? k = c.solutions.solution? k :=
      (solution?_of_answers_fresh hco k).trans (solution?_of_answers_fresh hd k)
    have htoNat {k : Nat} (hk : k < c₂.solutions.size) : (UInt32.ofNat k).toNat = k :=
      UInt32.toNat_ofNat_of_lt' (show k < UInt32.size by omega)
    have hne {k : Nat} (hk : c.solutions.size ≤ k) (hk' : k < c₂.solutions.size) :
        UInt32.ofNat k ≠ i := fun e => by
      have := htoNat hk'
      rw [e] at this
      omega
    have hnew {k : Nat} (hk : c.solutions.size ≤ k) (hk' : k < c₂.solutions.size) :
        c₂.solutions.solution? (.ofNat k) = none := by
      rw [hsolution]
      exact Solutions.solution?_of_size_le (by rw [htoNat hk']; exact hk)
    have hd₀ : c.solutions.size < c₂.solutions.size := by omega
    have hd₁ : c₁.solutions.size < c₂.solutions.size := by omega
    have hsuccess : (c₂.solutions.unify (.metavar i) (.arrow d co)).1 = true := by
      rw [hdeq, hceq]
      exact Solutions.unify_metavar_arrow (by rw [hsolution, hopen]) (by omega)
        (hnew (Nat.le_refl _) hd₀) (hnew hg₁.size hd₁)
        (hne (Nat.le_refl _) hd₀) (hne hg₁.size hd₁)
    have hr' : r = true := (answers_unify.1 hu).1.symm.trans hsuccess
    calc t.fill σ = (c.solutions.resolve t).fill σ :=
      ((hσ.of_grows hgrows).satisfies.fill_resolve t).symm
      _ = (Ty.metavar i).fill σ := by rw [hr]
      _ = .arrow (d.fill σ) (co.fill σ) := heq hr' σ hσ

def Mode.Meets (σ : UInt32 → Ty) (found : Ty) : Mode → Prop
  | .infer => True
  | .check expected => found.fill σ = expected.fill σ

def Mode.Within (ctx : Context) (n : Nat) : Mode → Prop
  | .infer => True
  | .check expected => expected.Within ctx n

theorem Mode.within_infer : Mode.infer.Within ctx n := trivial

theorem Mode.Within.mono {mode : Mode} (h : mode.Within ctx n) (hnm : n ≤ m) :
    mode.Within ctx m := by
  cases mode with
  | infer => trivial
  | check expected => exact Ty.Within.mono h hnm

theorem Valid.settle {term : Term} {found : Ty} {mode : Mode} (hv : c.Valid ctx)
    (hf : found.Within ctx c.solutions.size)
    (hm : mode.Within ctx c.solutions.size) (h : Answers (settle term found mode) c t c') :
    found = t ∧ c.Grows c' ∧ c'.Valid ctx ∧ t.Within ctx c'.solutions.size ∧ ∀ σ, c'.Realizes σ →
    mode.Meets σ t := by
  cases mode with
  | infer =>
    obtain ⟨rfl, rfl⟩ := answers_settle_infer.1 h
    exact ⟨rfl, .refl c, hv, hf, fun _ _ => trivial⟩
  | check expected =>
    obtain ⟨rfl, hu⟩ := answers_settle_check.1 h
    obtain ⟨hg, hv', hs, heq⟩ := hv.unify hf hm hu
    exact ⟨rfl, hg, hv', hf.mono hg.size, heq rfl⟩

theorem Valid.freshAll {xs : List Name} {bindings : List (Name × Ty)} (hv : c.Valid ctx)
    (h : Answers (freshAll xs) c bindings c') :
    c.Grows c' ∧ c'.Valid ctx ∧ bindings.map Prod.fst = xs ∧
      ∀ b ∈ bindings, (∃ i, b.2 = .metavar i) ∧ b.2.Within ctx c'.solutions.size := by
  induction xs generalizing c bindings with
  | nil =>
    obtain ⟨rfl, rfl⟩ := answers_pure.1 h
    exact ⟨.refl c, hv, rfl, nofun⟩
  | cons x xs ih =>
    simp only [Checker.freshAll, answers_bind, answers_pure] at h
    obtain ⟨t, c₁, ht, bs, _, hbs, rfl, rfl⟩ := h
    obtain ⟨hg₁, hv₁, -, hti, htw⟩ := hv.fresh ht
    obtain ⟨hg₂, hv₂, hfst, hall⟩ := ih hv₁ hbs
    exact ⟨hg₁.trans hg₂, hv₂, congrArg (x :: ·) hfst,
      List.forall_mem_cons.2 ⟨⟨⟨_, hti⟩, htw.mono hg₂.size⟩, hall⟩⟩

def OntoMetavars (m : Index Name Ty) : Prop := ∀ x u, m.find? x = some u → ∃ i, u = .metavar i

theorem Valid.freshCopy {signature : Ty} (hv : c.Valid ctx)
    (hw : checkWritten ctx signature = .ok ()) (h : Answers (freshCopy signature) c t c') :
    c.Grows c' ∧ c'.Valid ctx ∧ t.Within ctx c'.solutions.size ∧ ∃ m, t = signature.subst m ∧
    OntoMetavars m := by
  simp only [Checker.freshCopy, answers_bind, answers_pure] at h
  obtain ⟨bs, _, hbs, rfl, rfl⟩ := h
  obtain ⟨hg, hv', hfst, hall⟩ := hv.freshAll hbs
  obtain ⟨hf, hm⟩ := checkWritten_eq_ok_iff.1 hw
  refine ⟨hg, hv', ?_, _, rfl, fun x u hu => (hall _ (Index.mem_of_find?_ofList hu)).1⟩
  rw [Ty.subst_eq_bind]
  refine Ty.Within.bind hf (fun x hx => ?_) fun i hi => ?_
  · cases hu : (Index.ofList bs).find? x with
    | none =>
      refine ⟨trivial, fun i hi => ?_⟩
      cases hi
    | some u => exact (hall _ (Index.mem_of_find?_ofList hu)).2
  · simp [hm i] at hi

theorem OntoMetavars.doms_var {m : Index Name Ty} (hm : OntoMetavars m) (x : Name) :
    ((Ty.var x).subst m).doms = [] := by
  rw [Ty.subst_eq_bind, Ty.bind_var]
  cases hx : m.find? x with
  | none => rfl
  | some u =>
    obtain ⟨i, rfl⟩ := hm x u hx
    rfl

theorem OntoMetavars.telescope {m : Index Name Ty} (hm : OntoMetavars m) (t : Ty) :
    (t.subst m).telescope = (t.doms.map (·.subst m), t.result.subst m) := by
  have hflat : (t.result.subst m).doms = [] := by
    have h := Ty.doms_result t
    cases hr : t.result with
    | var x => exact hm.doms_var x
    | arrow d c =>
      rw [hr] at h
      cases h
    | _ => rfl
  simp only [Ty.subst_eq_bind] at hflat ⊢
  exact Ty.telescope_bind hflat

end Checker

end ClosedTypes
