import ClosedTypes.Context
import ClosedTypes.Reduction.Fold
import ClosedTypes.Term.Substitution
/-!
The rules of evaluation: a context's equations, and the implementations that were loaded. An
operation that has an implementation goes to it and no longer by its equations.
-/

namespace ClosedTypes

namespace Term

def beta? : Term → Term → Option Term
  | lam x _ b, a => some (b.instantiate x a)
  | _, _ => none

def branch? : Term → Term → Term → Option Term
  | lit (.bool c), t, e => some (if c then t else e)
  | _, _, _ => none

def component? : Term → UInt64 → Option Term
  | tuple elems, i => elems[i.toNat]?
  | _, _ => none

end Term

structure Rules where
  context : Context
  implementations : Index Name Term

namespace Rules

def ofContext (ctx : Context) : Rules := ⟨ctx, .empty⟩

def load (rules : Rules) (typeName : Name) : Rules :=
  { rules with
    implementations := (rules.context.operations typeName).foldl (fun m op =>
      match rules.context.implementation? op with
      | some d => m.insert op d.body
      | none => m) rules.implementations }

def implementation? (rules : Rules) (op : Name) : Option Term := rules.implementations.find? op

def contract? (rules : Rules) (e : Name) (s : Term) (args : List Term) : Option Term :=
  match s with
  | .ctor c fields =>
    (rules.context.equation? e c).map fun d =>
      d.rhs.subst (.ofList (d.binders.zip (fields ++ args)))
  | _ => none

end Rules

end ClosedTypes
