import ClosedTypes.Ty
/-!
Terms. Variables are named; `Term.free` is what substitution has to look out for.
-/

namespace ClosedTypes

inductive Term where
  | var (x : Name)
  | app (fn arg : Term)
  | lam (x : Name) (dom : Option Ty) (body : Term)
  | ann (t : Term) (ty : Ty)
  | ctor (c : Name) (args : List Term)
  /-- An eliminator applied to its scrutinee and its remaining arguments. -/
  | elim (e : Name) (scrutinee : Term) (args : List Term)
  | lit (l : Literal)
  | prim (op : Operator) (args : List Term)
  | tuple (elems : List Term)
  | proj (t : Term) (i : UInt64)
  deriving Inhabited

namespace Term

mutual

def same : Term → Term → Bool
  | var x, var y => x = y
  | app f a, app g b => same f g && same a b
  | lam x d b, lam y e c => x = y && d = e && same b c
  | ann t a, ann u b => same t u && a = b
  | ctor c as, ctor d bs => c = d && sameAll as bs
  | elim c s as, elim d t bs => c = d && same s t && sameAll as bs
  | lit l, lit k => l = k
  | prim o as, prim p bs => o = p && sameAll as bs
  | tuple as, tuple bs => sameAll as bs
  | proj t i, proj u j => same t u && i = j
  | _, _ => false

def sameAll : List Term → List Term → Bool
  | [], [] => true
  | a :: as, b :: bs => same a b && sameAll as bs
  | _, _ => false

end

mutual

theorem same_iff : (a b : Term) → (same a b = true ↔ a = b)
  | var _, b => by cases b <;> simp [same]
  | lit _, b => by cases b <;> simp [same]
  | app f a, b => by
    cases b with
    | app g b => simp [same, same_iff f g, same_iff a b]
    | _ => simp [same]
  | lam _ _ b, c => by
    cases c with
    | lam _ _ c => simp [same, same_iff b c, and_assoc]
    | _ => simp [same]
  | ann t _, b => by
    cases b with
    | ann u _ => simp [same, same_iff t u]
    | _ => simp [same]
  | ctor _ as, b => by
    cases b with
    | ctor _ bs => simp [same, sameAll_iff as bs]
    | _ => simp [same]
  | elim _ s as, b => by
    cases b with
    | elim _ t bs => simp [same, same_iff s t, sameAll_iff as bs, and_assoc]
    | _ => simp [same]
  | prim _ as, b => by
    cases b with
    | prim _ bs => simp [same, sameAll_iff as bs]
    | _ => simp [same]
  | tuple as, b => by
    cases b with
    | tuple bs => simp [same, sameAll_iff as bs]
    | _ => simp [same]
  | proj t _, b => by
    cases b with
    | proj u _ => simp [same, same_iff t u]
    | _ => simp [same]

theorem sameAll_iff : (as bs : List Term) → (sameAll as bs = true ↔ as = bs)
  | [], bs => by cases bs <;> simp [sameAll]
  | a :: as, bs => by
    cases bs with
    | nil => simp [sameAll]
    | cons b bs => simp [sameAll, same_iff a b, sameAll_iff as bs]

end

instance : DecidableEq Term := fun a b => decidable_of_iff _ (same_iff a b)

def int (n : Int64) : Term := lit (.int n)

def bool (b : Bool) : Term := lit (.bool b)

def applyAll (f : Term) (args : List Term) : Term := args.foldl app f

def spine : Term → Term × List Term
  | app f a => (f.spine.1, f.spine.2 ++ [a])
  | t => (t, [])

def literal? : Term → Option Literal
  | lit l => some l
  | _ => none

mutual

def size : Term → Nat
  | var _ => 1
  | app f a => size f + size a + 1
  | lam _ _ b => size b + 1
  | ann t _ => size t + 1
  | ctor _ args => sizeAll args + 1
  | elim _ s args => size s + sizeAll args + 1
  | lit _ => 1
  | prim _ args => sizeAll args + 1
  | tuple elems => sizeAll elems + 1
  | proj t _ => size t + 1

def sizeAll : List Term → Nat
  | [] => 0
  | t :: ts => size t + sizeAll ts + 1

end

mutual

def free : Term → List Name
  | var x => [x]
  | app f a => free f ++ free a
  | lam x _ b => (free b).filter (· ≠ x)
  | ann t _ => free t
  | ctor _ args => freeAll args
  | elim _ s args => free s ++ freeAll args
  | lit _ => []
  | prim _ args => freeAll args
  | tuple elems => freeAll elems
  | proj t _ => free t

def freeAll : List Term → List Name
  | [] => []
  | t :: ts => free t ++ freeAll ts

end

def freeNames (t : Term) : List Name := t.free.eraseDups

def dependsOn (t : Term) (x : Name) : Bool := x ∈ t.free

def isClosed (t : Term) : Bool := t.free.isEmpty

end Term

end ClosedTypes
