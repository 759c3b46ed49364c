import ClosedTypes.Proofs.Typing.Soundness
/-!
Whole terms: a type that the checker infers or accepts is one by the typing rules, and stays one
when the context is extended.
-/

namespace ClosedTypes.Checker

variable {ctx ctx' : Context} {c c' : Checker} {t : Term} {ty expected : Ty} {σ : UInt32 → Ty}

def Check.metavars {α : Type} (m : Check α) : Nat := (m.apply .initial).2.solutions.size

/-- What is known of an operand of `==` that was put off does not rule out a primitive type. -/
def Comparable (s : Solutions) (t : Ty) : Prop :=
  (∃ p, s.zonk t = .prim p) ∨ ∃ i, s.zonk t = .metavar i

theorem answers_checkDeferred {deferred : List (Term × Ty)} :
    Answers (checkDeferred ctx deferred) c () c' ↔ (∀ p ∈ deferred, Comparable c.solutions p.2) ∧
    c = c' := by
  induction deferred with
  | nil =>
    rw [checkDeferred]
    simp
  | cons p rest ih =>
    obtain ⟨u, t⟩ := p
    rw [checkDeferred, answers_bind_of_iff fun _ _ => answers_zonk, answers_lift_bind,
      exists_unit, List.forall_mem_cons, and_assoc, ← ih, Barrier.permitPrimitive_eq_ok_iff]
    unfold Comparable
    cases c.solutions.zonk t <;> simp [Barrier.guarded?, Ty.head?]

theorem answers_discharge :
    Answers (discharge ctx) c () c' ↔
      (∀ p ∈ c.equalities, Comparable c.solutions p.2) ∧ { c with equalities := [] } = c' := by
  unfold discharge
  rw [answers_bind_of_iff fun _ _ => answers_get, answers_unit_bind]
  simp only [answers_modify, exists_eq_left', answers_checkDeferred]

theorem Valid.realizes (hv : c.Valid ctx) (hc : ∀ p ∈ c.equalities, Comparable c.solutions p.2)
    {τ : UInt32 → Ty}
    (hτ : ∀ i, ∃ p, τ i = .prim p) :
    c.Realizes fun i => (c.solutions.zonk (.metavar i)).fill τ := by
  have hsat := hv.acyclic.satisfies τ
  refine ⟨hsat, fun p hp => ?_⟩
  rw [← hsat.fill_zonk p.2]
  rcases hc p hp with ⟨q, hq⟩ | ⟨i, hi⟩
  · exact ⟨q, by rw [hq]; rfl⟩
  · have hopen : c.solutions.solution? i = none := by
      have hmem : (c.solutions.zonk p.2).mentionsMetavar i = true := by simp [hi]
      exact (hv.acyclic.mentionsMetavar_zonk.1 hmem).isOpen
    obtain ⟨q, hq⟩ := hτ i
    refine ⟨q, ?_⟩
    rw [hi, Ty.fill, Ty.bind_metavar, Solutions.zonk_metavar_of_open hopen]
    exact hq

theorem fst_apply_eq_ok_iff {α : Type} {m : Check α} {a : α} :
    (m.apply c).1 = .ok a ↔ ∃ c', Answers m c a c' := by
  show (m.apply c).1 = .ok a ↔ ∃ c', m.apply c = (.ok a, c')
  obtain ⟨r, c₁⟩ := m.apply c
  simp

theorem inferType_eq_ok_iff :
    inferType ctx t = .ok ty ↔ ∃ u c', Answers (judge ctx t .infer) initial u c' ∧
      (∀ p ∈ c'.equalities, Comparable c'.solutions p.2) ∧ c'.solutions.zonk u = ty := by
  unfold inferType infer
  simp only [fst_apply_eq_ok_iff]
  constructor
  · rintro ⟨c', h⟩
    obtain ⟨u, c₁, hj, h⟩ := answers_bind.1 h
    obtain ⟨c₂, hd, h⟩ := answers_unit_bind.1 h
    obtain ⟨hc, rfl⟩ := answers_discharge.1 hd
    exact ⟨u, c₁, hj, hc, (answers_zonk.1 h).1⟩
  · rintro ⟨u, c₁, hj, hc, hz⟩
    exact ⟨_,
      answers_bind.2
        ⟨u, c₁, hj,
          answers_unit_bind.2 ⟨_, answers_discharge.2 ⟨hc, rfl⟩, answers_zonk.2 ⟨hz, rfl⟩⟩⟩⟩

theorem metavars_eq {α : Type} {m : Check α} {a : α} (h : Answers m initial a c') :
    m.metavars = c'.solutions.size := by
  unfold Check.metavars
  rw [show m.apply initial = (.ok a, c') from h]

/-- An inferred type is one by the typing rules, with any primitive types for its open
metavariables. -/
theorem hasType_of_inferType (hctx : ctx.Shaped) (hsize : (infer ctx t).metavars ≤ UInt32.size)
    (h : inferType ctx t = .ok ty)
    {τ : UInt32 → Ty} (hτ : ∀ i, ∃ p, τ i = .prim p) : HasType ctx [] t (ty.fill τ) := by
  obtain ⟨u, c', hj, hc, rfl⟩ := inferType_eq_ok_iff.1 h
  obtain ⟨-, hs⟩ := sound hctx t (valid_initial ctx) Mode.within_infer hj
  have hcount : c'.solutions.size ≤ UInt32.size := (metavars_eq hj) ▸ hsize
  have htype := (hs.holds hcount _ (hs.valid.realizes hc hτ)).1
  rw [Solutions.zonk_eq_fill, Ty.fill, Ty.bind_bind]
  exact htype

theorem inferType_mono (hctx : ctx.Shaped) (hc : ctx.KnownBy ctx') (h : inferType ctx t = .ok ty) :
    inferType ctx' t = .ok ty := by
  obtain ⟨u, c', hj, hcomp, hz⟩ := inferType_eq_ok_iff.1 h
  exact inferType_eq_ok_iff.2
    ⟨u, c', (sound hctx t (valid_initial ctx) Mode.within_infer hj).2.stable hc, hcomp, hz⟩

def knowing (assumptions : List (Name × Ty)) : Checker :=
  { initial with locals := assumptions.reverse }

theorem answers_pushAll {assumptions : List (Name × Ty)} :
    Answers (Validation.pushAll assumptions) c () c' ↔
    { c with locals := assumptions.reverse ++ c.locals } = c' := by
  induction assumptions generalizing c with
  | nil =>
    rw [Validation.pushAll]
    simp
  | cons p rest ih =>
    obtain ⟨x, t⟩ := p
    rw [Validation.pushAll, answers_unit_bind]
    simp only [answers_push, exists_eq_left', ih, List.reverse_cons, List.append_assoc,
      List.singleton_append]

theorem checkUnder_eq_ok_iff {assumptions : List (Name × Ty)} :
    Validation.checkUnder ctx assumptions t expected = .ok () ↔
      ∃ u c', Answers (judge ctx t (.check expected)) (knowing assumptions) u c' ∧
        ∀ p ∈ c'.equalities, Comparable c'.solutions p.2 := by
  unfold Validation.checkUnder check
  simp only [fst_apply_eq_ok_iff]
  constructor
  · rintro ⟨c', h⟩
    obtain ⟨c₁, hp, h⟩ := answers_unit_bind.1 h
    obtain ⟨c₂, hchecked, h⟩ := answers_unit_bind.1 h
    obtain ⟨u, c₃, hj, hu⟩ := answers_bind.1 hchecked
    obtain ⟨-, rfl⟩ := answers_pure.1 hu
    obtain ⟨hc, -⟩ := answers_discharge.1 h
    refine ⟨u, c₃, ?_, hc⟩
    rw [← answers_pushAll.1 hp, show initial.locals = [] from rfl, List.append_nil] at hj
    exact hj
  · rintro ⟨u, c₁, hj, hc⟩
    refine ⟨_, answers_unit_bind.2 ⟨knowing assumptions, answers_pushAll.2 ?_,
      answers_unit_bind.2 ⟨c₁, ?_, answers_discharge.2 ⟨hc, rfl⟩⟩⟩⟩
    · simp [knowing, initial]
    · exact answers_bind.2 ⟨u, c₁, hj, answers_pure.2 ⟨rfl, rfl⟩⟩

def metavarsUnder (ctx : Context) (assumptions : List (Name × Ty)) (t : Term) (expected : Ty) :
    Nat :=
  Check.metavars (do Validation.pushAll assumptions; check ctx t expected)

theorem metavarsUnder_eq {assumptions : List (Name × Ty)} {u : Ty}
    (h : Answers (judge ctx t (.check expected)) (knowing assumptions) u c') :
    metavarsUnder ctx assumptions t expected = c'.solutions.size := by
  have hchecked : Answers (check ctx t expected) (knowing assumptions) () c' :=
    answers_bind.2 ⟨u, c', h, answers_pure.2 ⟨rfl, rfl⟩⟩
  refine metavars_eq (answers_unit_bind.2 ⟨knowing assumptions, answers_pushAll.2 ?_, hchecked⟩)
  simp [knowing, initial]

theorem valid_knowing {assumptions : List (Name × Ty)}
    (h : ∀ p ∈ assumptions, checkWritten ctx p.2 = .ok ()) :
    (knowing assumptions).Valid ctx :=
  ⟨(valid_initial ctx).acyclic, (valid_initial ctx).solutions, fun p hp =>
    Ty.within_of_checkWritten (h p (List.mem_reverse.1 hp))⟩

section

variable {assumptions : List (Name × Ty)} (hctx : ctx.Shaped)
  (hassumptions : ∀ p ∈ assumptions, checkWritten ctx p.2 = .ok ())
  (hexpected : checkWritten ctx expected = .ok ())

include hctx hassumptions hexpected

theorem checkUnder_mono (hc : ctx.KnownBy ctx')
    (h : Validation.checkUnder ctx assumptions t expected = .ok ()) :
    Validation.checkUnder ctx' assumptions t expected = .ok () := by
  obtain ⟨u, c', hj, hcomp⟩ := checkUnder_eq_ok_iff.1 h
  have hm : (Mode.check expected).Within ctx (knowing assumptions).solutions.size :=
    Ty.within_of_checkWritten hexpected
  exact checkUnder_eq_ok_iff.2
    ⟨u, c', (sound hctx t (valid_knowing hassumptions) hm hj).2.stable hc, hcomp⟩

theorem hasType_of_checkUnder (hsize : metavarsUnder ctx assumptions t expected ≤ UInt32.size)
    (h : Validation.checkUnder ctx assumptions t expected = .ok ()) :
    HasType ctx assumptions.reverse t expected := by
  obtain ⟨u, c', hj, hcomp⟩ := checkUnder_eq_ok_iff.1 h
  have hm : (Mode.check expected).Within ctx (knowing assumptions).solutions.size :=
    Ty.within_of_checkWritten hexpected
  obtain ⟨-, hs⟩ := sound hctx t (valid_knowing hassumptions) hm hj
  have hcount : c'.solutions.size ≤ UInt32.size := (metavarsUnder_eq hj) ▸ hsize
  let τ : UInt32 → Ty := fun _ => .prim .int
  have hσ := hs.valid.realizes hcomp (show ∀ i, ∃ p, τ i = .prim p from fun _ => ⟨.int, rfl⟩)
  obtain ⟨htype, hmeets⟩ := hs.holds hcount _ hσ
  have hlocals : Locals.fill (fun i => (c'.solutions.zonk (.metavar i)).fill τ)
      (knowing assumptions).locals =
      assumptions.reverse := by
    refine (List.map_congr_left fun p hp => ?_).trans (List.map_id _)
    rw [fill_of_checkWritten (hassumptions p (List.mem_reverse.1 hp))]
    rfl
  rw [hlocals, show u.fill _ = expected.fill _ from hmeets, fill_of_checkWritten hexpected] at htype
  exact htype

end

end ClosedTypes.Checker
