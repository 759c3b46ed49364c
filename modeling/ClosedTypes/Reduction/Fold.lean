import ClosedTypes.Term.Alpha
/-!
Folding of primitive operations: wrapping machine arithmetic on literals, and the linear rules that
bring symbolic integers into the shape `t + k` and comparisons with a literal into the shape
`t == k`.
-/

namespace ClosedTypes

namespace Term

def int? : Term → Option Int64
  | lit (.int n) => some n
  | _ => none

def bool? : Term → Option Bool
  | lit (.bool b) => some b
  | _ => none

def addend? : Term → Option (Term × Int64)
  | prim .add [t, lit (.int k)] => some (t, k)
  | _ => none

end Term

open Term

def foldAdd (a b : Term) : Option Term :=
  match a.int?, b.int? with
  | some x, some y => some (int (x + y))
  | some _, none => some (prim .add [b, a])
  | none, some y => if y = 0 then some a else a.addend?.map fun (t, x) => prim .add [t, int (x + y)]
  | none, none => none

def foldSub (a b : Term) : Option Term :=
  match a.int?, b.int? with
  | some x, some y => some (int (x - y))
  | none, some y => some (prim .add [a, int (-y)])
  | _, none => if a.alpha b then some (int 0) else none

def foldEq (a b : Term) : Option Term :=
  match a.literal?, b.literal? with
  | some x, some y => some (bool (x = y))
  | _, _ =>
    if a.alpha b then some (bool true)
    else if a.literal?.isSome then some (prim .eq [b, a])
    else
      match a.addend?, b.int? with
      | some (t, x), some y => some (prim .eq [t, int (y - x)])
      | _, _ => none

def foldAnd (a b : Term) : Option Term :=
  match a.bool?, b.bool? with
  | some false, _ => some (bool false)
  | _, some false => some (bool false)
  | some true, _ => some b
  | _, some true => some a
  | none, none => none

def foldOr (a b : Term) : Option Term :=
  match a.bool?, b.bool? with
  | some true, _ => some (bool true)
  | _, some true => some (bool true)
  | some false, _ => some b
  | _, some false => some a
  | none, none => none

/-- What an operation on these operands folds to, if it does. -/
def fold : Operator → List Term → Option Term
  | .add, [a, b] => foldAdd a b
  | .sub, [a, b] => foldSub a b
  | .mul, [a, b] => do return int ((← a.int?) * (← b.int?))
  | .lt, [a, b] => do return bool ((← a.int?) < (← b.int?))
  | .eq, [a, b] => foldEq a b
  | .and, [a, b] => foldAnd a b
  | .or, [a, b] => foldOr a b
  | .not, [a] => do return bool (!(← a.bool?))
  | _, _ => none

end ClosedTypes
