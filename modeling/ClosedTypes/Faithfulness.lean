import ClosedTypes.Faithfulness.Odometer
import ClosedTypes.Limits
import ClosedTypes.Reduction.Evaluator
/-!
Faithfulness of a representation: do a type's equations still hold when its operations run through
their implementations? Each pair of an eliminator and a constructor is a goal, met either by equal
normal forms or on samples.
-/

namespace ClosedTypes

namespace Faithfulness

inductive Mode where
  /-- By equal normal forms, and on samples where those do not decide. -/
  | symbolic
  /-- On samples only. -/
  | sampling
  deriving DecidableEq

inductive Verdict where
  | proved
  | holdsOnSamples (cases : Nat)
  deriving DecidableEq

structure Finding where
  eliminator : Name
  constructor : Name
  verdict : Verdict

structure Report where
  typeName : Name
  mode : Mode
  findings : List Finding

def Report.isProof (r : Report) : Bool := r.mode = .symbolic && r.findings.all (·.verdict = .proved)

/-- An equation on symbolic values; of its variables, `sampled` are the ones that the backing
makes primitive. -/
structure Goal where
  typeName : Name
  eliminator : Name
  constructor : Name
  lhs : Term
  rhs : Term
  sampled : List (Name × Prim)

def Goal.ofEquation (typeName : Name) (backing : Ty) (d : Equation) (fields : Nat)
    (types : List Ty) : Goal where
  typeName
  eliminator := d.eliminator
  constructor := d.constructor
  lhs :=
    let vars := d.binders.map Term.var
    .elim d.eliminator (.ctor d.constructor (vars.take fields)) (vars.drop fields)
  rhs := d.rhs
  sampled := (d.binders.zip types).filterMap fun (x, t) =>
    match t.substConst typeName backing with
    | .prim p => some (x, p)
    | _ => none

def goals (ctx : Context) (typeName : Name) (backing : Ty) : Except Error (List Goal) :=
  (ctx.eliminators typeName).flatMapM fun e => do
    let elim ← ctx.eliminator e
    (ctx.constructors typeName).mapM fun c => do
      let ctor ← ctx.constructor c
      match ctx.equation? e c with
      | some d => return .ofEquation typeName backing d ctor.fields.length (elim.binderTypes ctor)
      | none => throw (.nonExhaustive e [c])

namespace Goal

def sides (goal : Goal) (r : Evaluator) (bindings : List (Name × Term)) :
    Except Error (Term × Term) := do
  let values := Index.ofList bindings
  let lhs ← (r.normalize (goal.lhs.subst values)).1
  let rhs ← (r.normalize (goal.rhs.subst values)).1
  return (lhs, rhs)

def unfaithful (goal : Goal) (counterexample : Counterexample) : Error :=
  .unfaithful goal.typeName goal.eliminator goal.constructor counterexample

def undecided (goal : Goal) : Error := .undecided goal.typeName goal.eliminator goal.constructor

end Goal

namespace Goal

def tryCase (goal : Goal) (r : Evaluator) (wheels : List Wheel) : Except Error Unit := do
  let bindings := wheels.map Wheel.binding
  let (lhs, rhs) ← goal.sides r bindings
  unless lhs.alpha rhs do throw (goal.unfaithful ⟨bindings, lhs, rhs⟩)

def tryCases (goal : Goal) (r : Evaluator) (wheels : List Wheel) : Nat → Except Error Unit
  | 0 => .ok ()
  | n + 1 => do
    goal.tryCase r wheels
    goal.tryCases r (advance wheels) n

def pools (goal : Goal) (samples : List Literal) : List (Name × List Literal) :=
  goal.sampled.map fun (x, p) => (x, samples.filter (·.prim = p))

def onSamples (goal : Goal) (r : Evaluator) (limit : Nat) (samples : List Literal) :
    Except Error Verdict :=
  match (goal.pools samples).mapM fun (x, pool) => Wheel.first? x pool with
  | none => throw goal.undecided
  | some wheels => do
    let cases := caseCount limit wheels
    if cases = 0 then throw goal.undecided
    goal.tryCases r wheels cases
    return .holdsOnSamples cases

/-- Checks the goal on symbolic values. Sides that differ decide it only when both are closed. -/
def symbolic (goal : Goal) (r : Evaluator) (limit : Nat) (samples : List Literal) :
    Except Error Verdict := do
  let (lhs, rhs) ← goal.sides r []
  if lhs.alpha rhs then return .proved
  if lhs.isClosed && rhs.isClosed then throw (goal.unfaithful ⟨[], lhs, rhs⟩)
  if goal.sampled.isEmpty then throw goal.undecided
  goal.onSamples r limit samples

def check (goal : Goal) (r : Evaluator) (limit : Nat) (samples : List Literal) :
    Mode → Except Error Verdict
  | .symbolic => goal.symbolic r limit samples
  | .sampling => goal.onSamples r limit samples

end Goal

end Faithfulness

open Faithfulness in
/-- Whether the committed implementations of a type keep its equations. The first equation that
they do not keep is the answer. -/
def faithfulness (ctx : Context) (limits : Limits) (typeName : Name) (mode : Mode)
    (samples : List Literal) :
    Except Error Report := do
  unless ctx.declaresType typeName do throw (.name (.unknown typeName))
  match ctx.representation? typeName with
  | none => throw (.malformed ⟨typeName, .notRepresented⟩)
  | some d =>
    let evaluator := (Evaluator.start ctx limits.fuel).load typeName
    let findings ← (← goals ctx typeName d.backing.toTy).mapM fun goal => do
      let verdict ← goal.check evaluator limits.sampleCases samples mode
      return { eliminator := goal.eliminator, constructor := goal.constructor, verdict }
    return { typeName, mode, findings }

end ClosedTypes
