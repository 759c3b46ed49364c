import ClosedTypes.Typing.Checker
/-!
The states that a checker can come to. An operation that fails leaves what it found out until then.
-/

namespace ClosedTypes.Checker

/-- From the initial state by operations in any order, at any types and terms. What only looks at
a state is left out. -/
inductive Reachable (ctx : Context) : Checker → Prop where
  | initial : Reachable ctx .initial
  | fresh {c} : Reachable ctx c → Reachable ctx (fresh.apply c).2
  | unify {c} (a b : Ty) : Reachable ctx c → Reachable ctx ((unify a b).apply c).2
  | freshCopy {c} (signature : Ty) : Reachable ctx c →
    Reachable ctx ((freshCopy signature).apply c).2
  | push {c} (x : Name) (t : Ty) : Reachable ctx c → Reachable ctx ((push x t).apply c).2
  | pop {c} : Reachable ctx c → Reachable ctx (pop.apply c).2
  | infer {c} (t : Term) : Reachable ctx c → Reachable ctx ((infer ctx t).apply c).2
  | check {c} (t : Term) (expected : Ty) : Reachable ctx c →
    Reachable ctx ((check ctx t expected).apply c).2
  | discharge {c} : Reachable ctx c → Reachable ctx ((discharge ctx).apply c).2

inductive Operation where
  | fresh
  | unify (a b : Ty)
  | freshCopy (signature : Ty)
  | push (x : Name) (t : Ty)
  | pop
  | infer (t : Term)
  | check (t : Term) (expected : Ty)
  | discharge

def Operation.after (ctx : Context) (c : Checker) : Operation → Checker
  | .fresh => (Checker.fresh.apply c).2
  | .unify a b => ((Checker.unify a b).apply c).2
  | .freshCopy signature => ((Checker.freshCopy signature).apply c).2
  | .push x t => ((Checker.push x t).apply c).2
  | .pop => (Checker.pop.apply c).2
  | .infer t => ((Checker.infer ctx t).apply c).2
  | .check t expected => ((Checker.check ctx t expected).apply c).2
  | .discharge => ((Checker.discharge ctx).apply c).2

def after (ctx : Context) (c : Checker) (ops : List Operation) : Checker :=
  ops.foldl (Operation.after ctx) c

theorem Reachable.step {ctx : Context} {c : Checker} (h : Reachable ctx c) (op : Operation) :
    Reachable ctx (op.after ctx c) := by
  cases op with
  | fresh => exact h.fresh
  | unify a b => exact h.unify a b
  | freshCopy signature => exact h.freshCopy signature
  | push x t => exact h.push x t
  | pop => exact h.pop
  | infer t => exact h.infer t
  | check t expected => exact h.check t expected
  | discharge => exact h.discharge

theorem Reachable.after {ctx : Context} {c : Checker} (h : Reachable ctx c) (ops : List Operation) :
    Reachable ctx (Checker.after ctx c ops) := by
  induction ops generalizing c with
  | nil => exact h
  | cons op ops ih => exact ih (h.step op)

end ClosedTypes.Checker
