import ClosedTypes.Proofs.Typing.MostGeneral
/-!
What a checker keeps over its own errors. An operation that fails has solved some metavariables and
left others, and the checker goes on from there: whatever it does, it takes nothing back, so a type
that was handed out before means the same afterwards.
-/

namespace ClosedTypes.Checker

variable {ctx : Context} {c c' c'' : Checker}

/-- All metavariables are still there, and the solutions that they had are the solutions that
they have. -/
structure Keeps (c c' : Checker) : Prop where
  size : c.solutions.size ≤ c'.solutions.size
  kept : ∀ i t, c.solutions.solution? i = some t → c'.solutions.solution? i = some t

theorem Keeps.refl (c : Checker) : c.Keeps c := ⟨Nat.le_refl _, fun _ _ h => h⟩

theorem Keeps.trans (h : c.Keeps c') (h' : c'.Keeps c'') : c.Keeps c'' :=
  ⟨Nat.le_trans h.size h'.size, fun i t hs => h'.kept i t (h.kept i t hs)⟩

theorem Grows.keeps (h : c.Grows c') : c.Keeps c' := ⟨h.size, h.kept⟩

theorem grows_apply {α : Type} (m : Check α) [hm : Check.Makes .growth m] (c : Checker) :
    c.Grows (m.apply c).2 := hm.makes c

theorem keeps_discharge (ctx : Context) (c : Checker) : c.Keeps ((discharge ctx).apply c).2 := by
  have h : Grows { c with equalities := [] } ((discharge ctx).apply c).2 :=
    grows_apply (checkDeferred ctx c.equalities) { c with equalities := [] }
  exact ⟨h.size, h.kept⟩

theorem Operation.keeps_after (op : Operation) (c : Checker) : c.Keeps (op.after ctx c) := by
  cases op with
  | fresh => exact (grows_apply Checker.fresh c).keeps
  | unify a b => exact (grows_apply (Checker.unify a b) c).keeps
  | freshCopy signature => exact (grows_apply (Checker.freshCopy signature) c).keeps
  | push x t => exact ⟨Nat.le_refl _, fun _ _ h => h⟩
  | pop => exact ⟨Nat.le_refl _, fun _ _ h => h⟩
  | infer t => exact (grows_apply (Checker.infer ctx t) c).keeps
  | check t expected => exact (grows_apply (Checker.check ctx t expected) c).keeps
  | discharge => exact keeps_discharge ctx c

theorem keeps_after (ops : List Operation) (c : Checker) : c.Keeps (c.after ctx ops) := by
  induction ops generalizing c with
  | nil => exact .refl c
  | cons op ops ih => exact (op.keeps_after c).trans (ih _)

theorem Keeps.zonk_zonk (h : c.Keeps c') (hc : c'.solutions.Acyclic) (t : Ty) :
    c'.solutions.zonk (c.solutions.zonk t) = c'.solutions.zonk t := by
  refine hc.zonk_eq_of_fill_eq fun σ hσ => ?_
  have hsat : Solutions.Satisfies σ c.solutions := fun i u hs => hσ i u (h.kept i u hs)
  exact hsat.fill_zonk t

/-- A checker survives its own errors. Whatever they answer, `infer` and `check` leave the local
assumptions as they found them. No operations, failing or not, remove a metavariable or change a
solution; and a type that a reachable checker handed out keeps its meaning over all of them: the
later solutions make of it what they make of the type that it was found for. -/
theorem survives (ctx : Context) (c : Checker) :
    (∀ t, ((infer ctx t).apply c).2.locals = c.locals) ∧
      (∀ t expected, ((check ctx t expected).apply c).2.locals = c.locals) ∧
      ∀ ops : List Operation, c.Keeps (c.after ctx ops) ∧
        (Reachable ctx c → ∀ t, (c.after ctx ops).solutions.zonk (c.solutions.zonk t) =
          (c.after ctx ops).solutions.zonk t) := by
  refine ⟨fun t => (grows_apply (infer ctx t) c).locals, fun t expected =>
    (grows_apply (check ctx t expected) c).locals, fun ops =>
      ⟨keeps_after ops c, fun hc t => (keeps_after ops c).zonk_zonk (hc.after ops).acyclic t⟩⟩

def halfway : Checker := after .empty .initial [.fresh, .push "x" (.metavar 0)]

theorem halfway_survives :
    ((infer .empty (.prim .add [.var "x", .var "y"])).apply halfway).1 =
      .error (.type (.unboundVariable "y")) ∧
      ((infer .empty (.prim .add [.var "x", .var "y"])).apply halfway).2.locals = halfway.locals ∧
      (halfway.after .empty [.infer (.prim .add [.var "x", .var "y"]),
        .unify (.metavar 0) (.prim .bool)]).solutions.zonk
        (halfway.solutions.zonk (.metavar 0)) = .prim .int := by
  obtain ⟨hinfer, -, hlater⟩ := survives .empty halfway
  refine ⟨rfl, hinfer _, ?_⟩
  rw [(hlater _).2 (Reachable.initial.after _)]
  rfl

end ClosedTypes.Checker
