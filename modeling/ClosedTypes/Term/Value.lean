import ClosedTypes.Term
/-!
The meaning of primitive terms: those that are made of variables, literals and operations. The
operations are those of arithmetic, brought back to 64 bits.
-/

namespace ClosedTypes

namespace Operator

def sort? : Operator → List Prim → Option Prim
  | .add, [.int, .int] => some .int
  | .sub, [.int, .int] => some .int
  | .mul, [.int, .int] => some .int
  | .lt, [.int, .int] => some .bool
  | .eq, [p, q] => if p = q then some .bool else none
  | .and, [.bool, .bool] => some .bool
  | .or, [.bool, .bool] => some .bool
  | .not, [.bool] => some .bool
  | .ite, [.bool, p, q] => if p = q then some p else none
  | _, _ => none

def value? : Operator → List Literal → Option Literal
  | .add, [.int x, .int y] => some (.int (.ofInt (x.toInt + y.toInt)))
  | .sub, [.int x, .int y] => some (.int (.ofInt (x.toInt - y.toInt)))
  | .mul, [.int x, .int y] => some (.int (.ofInt (x.toInt * y.toInt)))
  | .lt, [.int x, .int y] => some (.bool (x.toInt < y.toInt))
  | .eq, [k, l] => some (.bool (k = l))
  | .and, [.bool b, .bool c] => some (.bool (b && c))
  | .or, [.bool b, .bool c] => some (.bool (b || c))
  | .not, [.bool b] => some (.bool !b)
  | .ite, [.bool c, k, l] => some (if c then k else l)
  | _, _ => none

end Operator

namespace Term

mutual

def sort? (Γ : Name → Prim) : Term → Option Prim
  | var x => some (Γ x)
  | lit l => some l.prim
  | prim op args => (sorts? Γ args).bind op.sort?
  | _ => none

def sorts? (Γ : Name → Prim) : List Term → Option (List Prim)
  | [] => some []
  | t :: ts => (sort? Γ t).bind fun p => (sorts? Γ ts).map (p :: ·)

end

mutual

def value? (ρ : Name → Option Literal) : Term → Option Literal
  | var x => ρ x
  | lit l => some l
  | prim op args => (values? ρ args).bind op.value?
  | _ => none

def values? (ρ : Name → Option Literal) : List Term → Option (List Literal)
  | [] => some []
  | t :: ts => (value? ρ t).bind fun l => (values? ρ ts).map (l :: ·)

end

end Term

end ClosedTypes
