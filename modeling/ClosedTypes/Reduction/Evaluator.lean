import ClosedTypes.Reduction.Evaluation
/-!
Questions about terms, answered by evaluation: normal forms and definitional equality, on a budget
that is either given for one question or shared by several.
-/

namespace ClosedTypes

namespace Rules

/-- Two terms are equal when their normal forms are equal up to bound names. Terms that are so to
begin with cost nothing. -/
def equal (rules : Rules) (n : Nat) (a b : Term) : Option (Bool × Nat) := do
  if a.alpha b then return (true, n)
  let (a, n) ← (rules.normalize n a).1
  let (b, n) ← (rules.normalize n b).1
  return (a.alpha b, n)

end Rules

structure Evaluator where
  rules : Rules
  limit : Nat
  remaining : Nat

namespace Evaluator

def start (ctx : Context) (limit : Nat) : Evaluator := ⟨.ofContext ctx, limit, limit⟩

def load (r : Evaluator) (typeName : Name) : Evaluator := { r with rules := r.rules.load typeName }

def reset (r : Evaluator) : Evaluator := { r with remaining := r.limit }

def steps (r : Evaluator) : Nat := r.limit - r.remaining

def ask {α : Type} (r : Evaluator) (question : Rules → Nat → Option (α × Nat)) :
    Except Error α × Evaluator :=
  match question r.rules r.remaining with
  | some (a, m) => (.ok a, { r with remaining := m })
  | none => (.error (.outOfFuel r.limit), { r with remaining := 0 })

def whnf (r : Evaluator) (t : Term) : Except Error Term × Evaluator :=
  r.ask fun rules n => (rules.whnf n t).1

def normalize (r : Evaluator) (t : Term) : Except Error Term × Evaluator :=
  r.ask fun rules n => (rules.normalize n t).1

def equal (r : Evaluator) (a b : Term) : Except Error Bool × Evaluator :=
  r.ask fun rules n => rules.equal n a b

end Evaluator

def normalize (ctx : Context) (t : Term) (fuel : Nat) : Except Error Term :=
  ((Evaluator.start ctx fuel).normalize t).1

def definitionallyEqual (ctx : Context) (a b : Term) (fuel : Nat) : Except Error Bool :=
  ((Evaluator.start ctx fuel).equal a b).1

end ClosedTypes
