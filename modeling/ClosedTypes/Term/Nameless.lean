import ClosedTypes.Term
/-!
Terms without bound names. Two terms are equal up to bound names when they have one nameless form,
and substitution on nameless forms has nothing to capture; both are the measure of what is done on
named terms.
-/

namespace ClosedTypes

inductive Nameless where
  | bound (i : Nat)
  | free (x : Name)
  | app (fn arg : Nameless)
  | lam (dom : Option Ty) (body : Nameless)
  | ann (t : Nameless) (ty : Ty)
  | ctor (c : Name) (args : List Nameless)
  | elim (e : Name) (scrutinee : Nameless) (args : List Nameless)
  | lit (l : Literal)
  | prim (op : Operator) (args : List Nameless)
  | tuple (elems : List Nameless)
  | proj (t : Nameless) (i : UInt64)
  deriving Inhabited

namespace Term

mutual

def namelessIn (xs : List Name) : Term → Nameless
  | var x =>
    match xs.idxOf? x with
    | some i => .bound i
    | none => .free x
  | app f a => .app (namelessIn xs f) (namelessIn xs a)
  | lam x d b => .lam d (namelessIn (x :: xs) b)
  | ann t ty => .ann (namelessIn xs t) ty
  | ctor c args => .ctor c (namelessAllIn xs args)
  | elim e s args => .elim e (namelessIn xs s) (namelessAllIn xs args)
  | lit l => .lit l
  | prim op args => .prim op (namelessAllIn xs args)
  | tuple elems => .tuple (namelessAllIn xs elems)
  | proj t i => .proj (namelessIn xs t) i

def namelessAllIn (xs : List Name) : List Term → List Nameless
  | [] => []
  | t :: ts => namelessIn xs t :: namelessAllIn xs ts

end

def nameless (t : Term) : Nameless := t.namelessIn []

theorem namelessAllIn_eq_map (xs : List Name) (ts : List Term) :
    namelessAllIn xs ts = ts.map (namelessIn xs) := by
  induction ts with
  | nil => rfl
  | cons t ts ih => rw [namelessAllIn, ih, List.map_cons]

end Term

namespace Nameless

mutual

/-- Simultaneous substitution for free names. Replacements have no loose bound variables, so that
binders need no care. -/
def subst (m : Name → Option Nameless) : Nameless → Nameless
  | bound i => bound i
  | free x => (m x).getD (free x)
  | app f a => app (subst m f) (subst m a)
  | lam d b => lam d (subst m b)
  | ann t ty => ann (subst m t) ty
  | ctor c args => ctor c (substAll m args)
  | elim e s args => elim e (subst m s) (substAll m args)
  | lit l => lit l
  | prim op args => prim op (substAll m args)
  | tuple elems => tuple (substAll m elems)
  | proj t i => proj (subst m t) i

def substAll (m : Name → Option Nameless) : List Nameless → List Nameless
  | [] => []
  | t :: ts => subst m t :: substAll m ts

end

theorem substAll_eq_map (m : Name → Option Nameless) (ts : List Nameless) :
    substAll m ts = ts.map (subst m) := by
  induction ts with
  | nil => rfl
  | cons t ts ih => rw [substAll, ih, List.map_cons]

mutual

def bare : Nameless → Nameless
  | bound i => bound i
  | free x => free x
  | app f a => app (bare f) (bare a)
  | lam _ b => lam none (bare b)
  | ann t ty => ann (bare t) ty
  | ctor c args => ctor c (bareAll args)
  | elim e s args => elim e (bare s) (bareAll args)
  | lit l => lit l
  | prim op args => prim op (bareAll args)
  | tuple elems => tuple (bareAll elems)
  | proj t i => proj (bare t) i

def bareAll : List Nameless → List Nameless
  | [] => []
  | t :: ts => bare t :: bareAll ts

end

theorem bareAll_eq_map (ts : List Nameless) : bareAll ts = ts.map bare := by
  induction ts with
  | nil => rfl
  | cons t ts ih => rw [bareAll, ih, List.map_cons]

end Nameless

end ClosedTypes
