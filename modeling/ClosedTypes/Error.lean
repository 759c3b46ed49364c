import ClosedTypes.Defect
/-!
Why a declaration, a term or a question is turned down. Errors say what happened; `message` puts it
into words.
-/

namespace ClosedTypes

def commaSeparated (xs : List Name) : String := ", ".intercalate xs

inductive NameFault where
  | duplicate (x : Name)
  | unknown (x : Name)

def NameFault.message : NameFault → String
  | duplicate x => "duplicate declaration: " ++ x
  | unknown x => "unknown name: " ++ x

inductive TypeFault where
  | unboundVariable (x : Name)
  | argument (fn arg : Term) (expected found : Ty)
  | notAFunction (t : Term) (found : Ty)
  | mismatch (t : Term) (expected found : Ty)
  | constructorArity (c : Name) (expected found : Nat)
  | eliminatorArity (e : Name) (expected found : Nat)
  | motive (e : Name) (branch : Nat) (expected found : Ty)
  | typeArity (c : Name) (expected found : Nat)
  | primArity (op : Operator) (found : Nat)
  | projection (i : UInt64) (found : Ty)
  | notAType (c : Name)
  | writtenMetavar (t : Ty)

def TypeFault.message : TypeFault → String
  | unboundVariable x => "unbound variable: " ++ x
  | argument fn arg expected found =>
    "argument " ++ arg.text ++ " of " ++ fn.text ++ " has type " ++ found.text ++ ", expected " ++
      expected.text
  | notAFunction t found => t.text ++ " has type " ++ found.text ++ " and cannot be applied"
  | mismatch t expected found =>
    "type mismatch for " ++ t.text ++ ": expected " ++ expected.text ++ ", found " ++ found.text
  | constructorArity c expected found =>
    "constructor " ++ c ++ " takes " ++ toString expected ++ " arguments, got " ++ toString found
  | eliminatorArity e expected found =>
    "eliminator " ++ e ++ " takes " ++ toString expected ++
      " arguments after the scrutinee, got " ++ toString found
  | motive e branch expected found =>
    "branch " ++ toString branch ++ " of " ++ e ++ " returns " ++ found.text ++
      ", but the motive is " ++ expected.text
  | typeArity c expected found =>
    "type " ++ c ++ " takes " ++ toString expected ++ " parameters, got " ++ toString found
  | primArity op found =>
    "primitive " ++ op.symbol ++ " takes " ++ toString op.arity ++ " arguments, got " ++
      toString found
  | projection i found => "projection ." ++ toString i.toNat ++ " out of range for " ++ found.text
  | notAType c => c ++ " is not a type"
  | writtenMetavar t => "metavariable " ++ t.text ++ " cannot appear in a written type"

inductive Intrusion where
  | primitive (op : Operator)
  | projection (i : UInt64)
  | elimination (e owner : Name)
  | extension (op : Name)
  | stated (reason : String)

def Intrusion.reason (typeName : Name) : Intrusion → String
  | primitive op => "primitive `" ++ op.symbol ++ "` applied to a " ++ typeName ++ " value"
  | projection i => "projection ." ++ toString i.toNat ++ " of a " ++ typeName ++ " value"
  | elimination e owner =>
    "eliminator " ++ e ++ " of " ++ owner ++ " applied to a " ++ typeName ++ " value"
  | extension op => op ++ " extends " ++ typeName ++ " after it was committed"
  | stated reason => reason

/-- An instance of an equation whose sides differ under the implementations. Variables left
symbolic have no binding. -/
structure Counterexample where
  bindings : List (Name × Term)
  lhs : Term
  rhs : Term

def Counterexample.message (c : Counterexample) : String :=
  "[" ++ ", ".intercalate (c.bindings.map fun b => b.1 ++ " = " ++ b.2.text) ++ "]: " ++
    c.lhs.text ++ " /= " ++ c.rhs.text

inductive Error where
  | name (e : NameFault)
  | type (e : TypeFault)
  | malformed (m : Malformed)
  | nonExhaustive (eliminator : Name) (missing : List Name)
  | overlapping (eliminator constructor : Name)
  | equationArity (eliminator constructor : Name) (expected found : Nat)
  | outOfFuel (limit : Nat)
  | intrusion (typeName : Name) (how : Intrusion) (observers : List Name)
  | unfaithful (typeName eliminator constructor : Name) (counterexample : Counterexample)
  | undecided (typeName eliminator constructor : Name)
  | incomplete (typeName : Name) (missing : List Name)
  | uncommitted (typeName : Name)

namespace Error

def message : Error → String
  | name e => e.message
  | type e => e.message
  | malformed m => m.message
  | nonExhaustive e missing =>
    "eliminator " ++ e ++ " has no equation for " ++ commaSeparated missing
  | overlapping e c => "eliminator " ++ e ++ " has more than one equation for " ++ c
  | equationArity e c expected found =>
    "equation " ++ e ++ "/" ++ c ++ " binds " ++ toString found ++ " variables, expected " ++
      toString expected
  | outOfFuel limit => "normalization ran out of fuel after " ++ toString limit ++ " steps"
  | intrusion typeName how [] =>
    "abstraction violation on " ++ typeName ++ ": " ++ how.reason typeName ++ "; " ++
      typeName ++ " has no eliminators"
  | intrusion typeName how observers =>
    "abstraction violation on " ++ typeName ++ ": " ++ how.reason typeName ++ "; " ++ typeName ++
      " is observable only through " ++ commaSeparated observers
  | unfaithful typeName e c counterexample =>
    "representation of " ++ typeName ++ " violates " ++ e ++ "/" ++ c ++ " at " ++
      counterexample.message
  | undecided typeName e c =>
    "could not decide " ++ e ++ "/" ++ c ++ " for " ++ typeName ++
      " symbolically and no samples apply"
  | incomplete typeName missing =>
    "representation of " ++ typeName ++ " is missing " ++ commaSeparated missing
  | uncommitted typeName => typeName ++ " must be committed before it can be represented"

end Error

inductive ErrorFamily where
  | name
  | arity
  | typeMismatch
  | nonExhaustiveEquations
  | overlappingEquations
  | motiveMismatch
  | nonTerminating
  | abstractionViolation
  | representationMismatch
  | malformed
  deriving DecidableEq

def TypeFault.family : TypeFault → ErrorFamily
  | constructorArity .. | eliminatorArity .. | typeArity .. | primArity .. => .arity
  | motive .. => .motiveMismatch
  | _ => .typeMismatch

def Error.family : Error → ErrorFamily
  | name _ => .name
  | type e => e.family
  | equationArity .. => .arity
  | nonExhaustive .. => .nonExhaustiveEquations
  | overlapping .. => .overlappingEquations
  | outOfFuel _ => .nonTerminating
  | intrusion .. => .abstractionViolation
  | unfaithful .. => .representationMismatch
  | malformed _ | incomplete .. | uncommitted _ | undecided .. => .malformed

end ClosedTypes
