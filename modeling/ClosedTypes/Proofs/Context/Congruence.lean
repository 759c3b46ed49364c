import ClosedTypes.Proofs.Context.Fitting
import ClosedTypes.Proofs.Reduction.Reducts
import ClosedTypes.Term.Frame
/-!
Definitional equality in larger terms. Equal terms stay equal in one place of another term, binders
around the place included, if reduction ends there and evaluation leaves no redex behind.
-/

namespace ClosedTypes

variable {known : Use → Prop} {rules : Rules} {a b t : Term} {n k : Nat} {r : Bool}

namespace Term

theorem Frame.over_fill {frame : Frame} (h : (frame.fill t).Over known) : t.Over known := by
  cases frame with
  | fn a => exact (over_app.1 h).1
  | arg f => exact (over_app.1 h).2
  | body x dom => exact h
  | ascribed ty => exact h
  | field c before after => exact (over_ctor.1 h).2 t (by simp)
  | scrutinee e args => exact (over_elim.1 h).2.1
  | rest e s before after => exact (over_elim.1 h).2.2 t (by simp)
  | operand op before after => exact over_prim.1 h t (by simp)
  | component before after => exact over_tuple.1 h t (by simp)
  | projected i => exact h

theorem over_fill {frames : List Frame} (h : (fill frames t).Over known) : t.Over known := by
  induction frames with
  | nil => exact h
  | cons frame frames ih => exact ih (Frame.over_fill h)

end Term

namespace Skeleton

theorem joins_frame (h : ∀ xs, Joins rules (a.skeleton xs) (b.skeleton xs)) (frame : Term.Frame)
    (xs : List Name) :
    Joins rules ((frame.fill a).skeleton xs) ((frame.fill b).skeleton xs) := by
  have among (before after : List Term) : One (Joins rules)
      ((before ++ a :: after).map (Term.skeleton xs))
      ((before ++ b :: after).map (Term.skeleton xs)) := by
    rw [List.map_append, List.map_append, List.map_cons, List.map_cons]
    exact .of_split _ _ (h xs)
  cases frame with
  | fn a => exact .part (.head (h xs))
  | arg f => exact .part (.tail (.head (h xs)))
  | body x dom => exact (h (x :: xs)).body
  | ascribed ty => exact .part (.head (h xs))
  | field c before after =>
    rw [Term.Frame.fill, Term.Frame.fill, Term.skeleton_ctor, Term.skeleton_ctor]
    exact .part (among before after)
  | scrutinee e args =>
    rw [Term.Frame.fill, Term.Frame.fill, Term.skeleton_elim, Term.skeleton_elim]
    exact .part (.head (h xs))
  | rest e s before after =>
    rw [Term.Frame.fill, Term.Frame.fill, Term.skeleton_elim, Term.skeleton_elim]
    exact .part (.tail (among before after))
  | operand op before after =>
    rw [Term.Frame.fill, Term.Frame.fill, Term.skeleton_prim, Term.skeleton_prim]
    exact .part (among before after)
  | component before after =>
    rw [Term.Frame.fill, Term.Frame.fill, Term.skeleton_tuple, Term.skeleton_tuple]
    exact .part (among before after)
  | projected i => exact .part (.head (h xs))

theorem joins_fill (h : ∀ xs, Joins rules (a.skeleton xs) (b.skeleton xs))
    (frames : List Term.Frame) :
    ∀ xs, Joins rules ((Term.fill frames a).skeleton xs) ((Term.fill frames b).skeleton xs) := by
  induction frames with
  | nil => exact h
  | cons frame frames ih => exact joins_frame ih frame

end Skeleton

namespace Rules

theorem equal_eq_some_iff : rules.equal n a b = some (r, k) ↔
    a.alpha b = true ∧ r = true ∧ k = n ∨ a.alpha b = false ∧
      ∃ u m v, (rules.normalize n a).1 = some (u, m) ∧ (rules.normalize m b).1 = some (v, k) ∧
      u.alpha v = r := by
  unfold Rules.equal
  cases a.alpha b with
  | true => simp [eq_comm]
  | false =>
    simp only [Bool.false_eq_true, if_false, Option.bind_eq_bind, Option.bind_eq_some_iff,
      false_and, false_or, true_and]
    constructor
    · rintro ⟨⟨u, m⟩, hu, ⟨v, k'⟩, hv, h⟩
      cases h
      exact ⟨u, m, v, hu, hv, rfl⟩
    · rintro ⟨u, m, v, hu, hv, rfl⟩
      exact ⟨(u, m), hu, (v, k), hv, rfl⟩

theorem joins_of_equal (hrules : rules.Fitting known) (ha : a.Over known) (hb : b.Over known)
    (h : rules.equal n a b = some (true, k)) (xs : List Name) :
    Skeleton.Joins rules (a.skeleton xs) (b.skeleton xs) := by
  rcases equal_eq_some_iff.1 h with ⟨halpha, -, -⟩ | ⟨-, u, m, v, hu, hv, halpha⟩
  · exact .of_eq (Term.skeleton_inj.2 halpha)
  · refine ⟨u.skeleton xs, (normalizes_of_normalize hu).reaches.skeleton hrules ha xs, ?_⟩
    rw [Term.skeleton_inj.2 halpha]
    exact (normalizes_of_normalize hv).reaches.skeleton hrules hb xs

end Rules

namespace Context

variable {ctx : Context}

theorem definitionallyEqual_eq_ok_iff {fuel : Nat} :
    definitionallyEqual ctx a b fuel = .ok r ↔ ∃ k, (Rules.ofContext ctx).equal fuel a b =
      some (r, k) :=
  Evaluator.fst_ask_eq_ok_iff

theorem normalize_eq_ok_iff {fuel : Nat} :
    normalize ctx a fuel = .ok b ↔ ∃ k, ((Rules.ofContext ctx).normalize fuel a).1 = some (b, k) :=
  Evaluator.fst_ask_eq_ok_iff

/-- Equal terms are found to be equal in every place of a larger term, unless a redex is left in
the normal form of the larger term on one of the sides. -/
theorem equal_fill_of_equal {frames : List Term.Frame} {fuel fuel' : Nat} {ta tb : Ty}
    (hr : ctx.Reachable)
    (h : definitionallyEqual ctx a b fuel = .ok true) (ha : inferType ctx (.fill frames a) = .ok ta)
    (hb : inferType ctx (.fill frames b) = .ok tb)
    (haend : (Rules.ofContext ctx).Terminates (.fill frames a))
    (hbend : (Rules.ofContext ctx).Terminates (.fill frames b))
    (hfill : definitionallyEqual ctx (.fill frames a) (.fill frames b) fuel' = .ok r) :
    r = true ∨ ∃ t ∈ [Term.fill frames a, Term.fill frames b], ∃ n u, normalize ctx t n = .ok u ∧
      ∃ s ∈ u.subterms, (Rules.ofContext ctx).Exposed s := by
  have hctx : ctx.WellFormed := hr.wellFormed
  have hrules := hctx.fitting_ofContext
  have haover : (Term.fill frames a).Over ctx.Admits :=
    (Checker.inScope_of_inferType hctx.shaped ha).uses
  have hbover : (Term.fill frames b).Over ctx.Admits :=
    (Checker.inScope_of_inferType hctx.shaped hb).uses
  obtain ⟨k, h⟩ := definitionallyEqual_eq_ok_iff.1 h
  obtain ⟨k', hfill⟩ := definitionallyEqual_eq_ok_iff.1 hfill
  rcases Rules.equal_eq_some_iff.1 hfill with ⟨-, rfl, -⟩ | ⟨-, u, m, v, hu, hv, rfl⟩
  · exact .inl rfl
  have hnormal {t w : Term} {n l : Nat}
      (hw : ((Rules.ofContext ctx).normalize n t).1 = some (w, l)) :
      (Rules.ofContext ctx).Irreducible w ∨ ∃ s ∈ w.subterms, (Rules.ofContext ctx).Exposed s := by
    refine or_iff_not_imp_right.2 fun hnone s hs v hv => hnone ⟨s, hs, ?_⟩
    exact (Rules.normalizes_of_normalize hw).exposed_of_contracts s hs v hv
  rcases hnormal hu with hunormal | hexposed
  · rcases hnormal hv with hvnormal | hexposed
    · have hjoin :=
        Skeleton.joins_fill
          (Rules.joins_of_equal hrules (Term.over_fill haover) (Term.over_fill hbover) h) frames []
      exact .inl (Rules.alpha_of_joins hrules haend hbend haover hbover hjoin
        (Rules.normalizes_of_normalize hu).reaches
        (Rules.normalizes_of_normalize hv).reaches hunormal hvnormal)
    · exact .inr ⟨_, List.mem_cons_of_mem _ List.mem_cons_self, m, v,
        normalize_eq_ok_iff.2 ⟨_, hv⟩, hexposed⟩
  · exact .inr ⟨_, List.mem_cons_self, fuel', u, normalize_eq_ok_iff.2 ⟨_, hu⟩, hexposed⟩

def condition :
    Term := .prim .eq [.app (.var "f") (.prim .add [.int 1, .int 1]), .app (.var "f") (.int 2)]

def conditional : List Term.Frame := [.body "f" none, .operand .ite [] [.int 1, .int 0]]

theorem inferType_conditional :
    inferType .empty (.fill conditional condition) =
      .ok (.arrow (.arrow (.prim .int) (.metavar 2)) (.prim .int)) ∧
      inferType .empty (.fill conditional (.bool true)) = .ok (.arrow (.metavar 0) (.prim .int)) :=
  ⟨eq_ok_of_toOption (by decide +kernel), rfl⟩

theorem equal_condition : definitionallyEqual .empty condition (.bool true) 10 = .ok true := by cbv

theorem not_equal_conditional :
    definitionallyEqual .empty (.fill conditional condition) (.fill conditional (.bool true)) 10 =
      .ok false := by cbv

theorem conditional_differs :
    definitionallyEqual .empty condition (.bool true) 10 = .ok true ∧
      definitionallyEqual .empty (.fill conditional condition) (.fill conditional (.bool true)) 10 =
        .ok false :=
  ⟨equal_condition, not_equal_conditional⟩

theorem conditional_exposes :
    ∃ t ∈ [Term.fill conditional condition, Term.fill conditional (.bool true)], ∃ n u,
    normalize .empty t n = .ok u ∧
      ∃ s ∈ u.subterms, (Rules.ofContext .empty).Exposed s := by
  have hend : (Rules.ofContext .empty).endsBefore 5 (.fill conditional condition) = true := by cbv
  have hend' : (Rules.ofContext .empty).endsBefore 5 (.fill conditional (.bool true)) =
      true := by cbv
  have h :=
    equal_fill_of_equal .empty equal_condition inferType_conditional.1 inferType_conditional.2
    (Rules.terminates_of_endsBefore hend) (Rules.terminates_of_endsBefore hend')
      not_equal_conditional
  exact h.resolve_left Bool.false_ne_true

/-- `Less The x = x - Less The x` and `Knot The = Less The (Knot The)`. -/
def knots : Block := [
  .type ⟨"One", 0⟩,
  .constructor ⟨"The", .const "One" [], "One"⟩,
  .eliminator ⟨"Less", .arrow (.const "One" []) (.arrow (.prim .int) (.prim .int)), "One", none⟩,
  .eliminator ⟨"Knot", .arrow (.const "One" []) (.prim .int), "One", none⟩,
  .equation ⟨"Less", "The", ["x"],
    .prim .sub [.var "x", .elim "Less" (.ctor "The" []) [.var "x"]]⟩,
  .equation ⟨"Knot", "The", [],
    .elim "Less" (.ctor "The" []) [.elim "Knot" (.ctor "The" []) []]⟩]

def withKnots : Context := (empty.commit knots).2

theorem withKnots_eq : withKnots = (empty.extended knots).sealBlock 0 := by
  have hknots : empty.errors knots = [] := List.isEmpty_iff.1 (by decide +kernel)
  exact snd_commit hknots

theorem withKnots_reachable : withKnots.Reachable :=
  .commit .empty (.of_stageAll .nil (show empty.stageAll [] knots = .ok knots from rfl))

def less (t : Term) : Term := .elim "Less" (.ctor "The" []) [t]

def knot : Term := .elim "Knot" (.ctor "The" []) []

theorem equation?_less : withKnots.equation? "Less" "The" =
    some ⟨"Less", "The", ["x"], .prim .sub [.var "x", less (.var "x")]⟩ := by
  rw [withKnots_eq]
  rfl

theorem reduces_less (t : Term) :
    (Rules.ofContext withKnots).Reduces (less t) (.prim .sub [t, less t]) := by
  have hsubst : (Term.prim .sub [.var "x", less (.var "x")]).subst (.ofList [("x", t)]) =
      .prim .sub [t, less t] := by
    rw [Term.subst_eq_replaced]
    simp [less, Term.replaced_var, Term.find?_ofList_singleton]
  have hstep : (Rules.ofContext withKnots).Contracts (less t) _ := .equation equation?_less
  exact hsubst ▸ .here hstep

theorem reduces_knot : (Rules.ofContext withKnots).Reduces knot (less knot) := by
  have hknot : withKnots.equation? "Knot" "The" = some ⟨"Knot", "The", [], less knot⟩ := by
    rw [withKnots_eq]
    rfl
  have hsubst : (less knot).subst (.ofList []) = less knot := by cbv
  have hstep : (Rules.ofContext withKnots).Contracts knot _ := .equation hknot
  exact hsubst ▸ .here hstep

def zeroLess : Nat → Term
  | 0 => less (.int 0)
  | n + 1 => .prim .sub [.int 0, zeroLess n]

theorem over_less {t : Term} (ht : t.Over withKnots.Admits) : (less t).Over withKnots.Admits := by
  rw [withKnots_eq] at ht ⊢
  exact Term.over_elim.2 ⟨⟨_, rfl, rfl⟩, Term.over_ctor.2 ⟨⟨_, rfl, rfl⟩, nofun⟩,
    List.forall_mem_singleton.2 ht⟩

theorem over_zeroLess (n : Nat) : (zeroLess n).Over withKnots.Admits := by
  induction n with
  | zero => exact over_less Term.over_lit
  | succ n ih =>
    exact Term.over_prim.2 (List.forall_mem_cons.2 ⟨Term.over_lit, List.forall_mem_singleton.2 ih⟩)

theorem zeroLess_of_reduces {n : Nat} {u : Term}
    (h : (Rules.ofContext withKnots).Reduces (zeroLess n) u) : u = zeroLess (n + 1) := by
  induction n generalizing u with
  | zero =>
    have hreducts : (Rules.ofContext withKnots).reducts (zeroLess 0) = [zeroLess 1] := by
      rw [withKnots_eq]
      cbv
    have hmem := h.mem_reducts
    rw [hreducts] at hmem
    exact List.mem_singleton.1 hmem
  | succ n ih =>
    have hfold : fold .sub [.int 0, zeroLess n] = none := by cases n <;> rfl
    change (Rules.ofContext withKnots).Reduces (.prim .sub [.int 0, zeroLess n]) u at h
    cases h with
    | here h =>
      cases h with
      | fold h =>
        rw [hfold] at h
        cases h
    | prim h =>
      cases h with
      | head h =>
        cases h with
        | here h => cases h
      | tail h =>
        cases h with
        | head h =>
          rw [ih h]
          rfl
        | tail h => cases h

theorem zeroLess_of_reaches {n : Nat} {w : Skeleton}
    (h : Skeleton.Reaches (Rules.ofContext withKnots) ((zeroLess n).skeleton []) w) :
    ∃ m, w = (zeroLess m).skeleton [] := by
  induction h with
  | refl => exact ⟨n, rfl⟩
  | tail _ hstep ih =>
    obtain ⟨m, rfl⟩ := ih
    obtain ⟨u, hu, rfl⟩ := Rules.exists_reduces withKnots_reachable.wellFormed.fitting_ofContext
      hstep (over_zeroLess m)
    exact ⟨m + 1, by rw [zeroLess_of_reduces hu]⟩

/-- Where reduction does not end, a term with a type may go two ways that never meet again, as a
difference folds when both its operands have come to the same. So an end has to be asked for. -/
theorem knot_not_confluent : withKnots.Reachable ∧ inferType withKnots knot = .ok (.prim .int) ∧
    (Rules.ofContext withKnots).Reaches knot (.int 0) ∧
      (Rules.ofContext withKnots).Reaches knot (zeroLess 0) ∧
        ¬Skeleton.Joins (Rules.ofContext withKnots) ((Term.int 0).skeleton [])
          ((zeroLess 0).skeleton []) := by
  have hless : (Rules.ofContext withKnots).Reaches (less knot) (.int 0) := by
    have hself : fold .sub [less knot, less knot] = some (.int 0) := by cbv
    exact .head (reduces_less knot)
      (.head (.prim (.head reduces_knot)) (.single (.here (.fold hself))))
  have hzero : (Rules.ofContext withKnots).Reaches knot (.int 0) := .head reduces_knot hless
  have hunder : (Rules.ofContext withKnots).Reaches (less knot) (zeroLess 0) :=
    hzero.lift less fun _ _ h => .operands (.head h)
  have ht : inferType withKnots knot = .ok (.prim .int) := by
    rw [withKnots_eq]
    rfl
  refine ⟨withKnots_reachable, ht, hzero, .head reduces_knot hunder, ?_⟩
  rintro ⟨w, hw, hw'⟩
  obtain ⟨m, rfl⟩ := zeroLess_of_reaches hw'
  have heq := Skeleton.eq_lit_of_reaches hw
  cases m <;> cases heq

theorem not_terminates_knot : ¬(Rules.ofContext withKnots).Terminates knot := fun hend => by
  obtain ⟨-, ht, hzero, hless, hnot⟩ := knot_not_confluent
  have hfit := withKnots_reachable.wellFormed.fitting_ofContext
  have hover : knot.Over withKnots.Admits :=
    (Checker.inScope_of_inferType withKnots_reachable.wellFormed.shaped ht).uses
  exact hnot ((hzero.skeleton hfit hover []).joins hfit.closed (hend.skeleton hfit hover [])
    (hless.skeleton hfit hover []))

end Context

end ClosedTypes
