import ClosedTypes.Term
/-!
Equality up to the names of bound variables.
-/

namespace ClosedTypes.Term

mutual

/-- `alphaIn xs ys t u`: the terms agree under the binders `xs` and `ys`, innermost first. A
binder's annotation is a hint to the checker and does not count; an ascription does. Terms that
are the same outside all binders are not gone through. -/
def alphaIn (xs ys : List Name) (t u : Term) : Bool :=
  xs.isEmpty && ys.isEmpty && t = u || match t, u with
  | var x, var y =>
    match xs.idxOf? x, ys.idxOf? y with
    | some i, some j => i = j
    | none, none => x = y
    | _, _ => false
  | app f a, app g b => alphaIn xs ys f g && alphaIn xs ys a b
  | lam x _ b, lam y _ c => alphaIn (x :: xs) (y :: ys) b c
  | ann t a, ann u b => a = b && alphaIn xs ys t u
  | ctor c as, ctor d bs => c = d && alphaAllIn xs ys as bs
  | elim c s as, elim d t bs => c = d && alphaIn xs ys s t && alphaAllIn xs ys as bs
  | lit l, lit k => l = k
  | prim o as, prim p bs => o = p && alphaAllIn xs ys as bs
  | tuple as, tuple bs => alphaAllIn xs ys as bs
  | proj t i, proj u j => i = j && alphaIn xs ys t u
  | _, _ => false

def alphaAllIn (xs ys : List Name) : List Term → List Term → Bool
  | [], [] => true
  | a :: as, b :: bs => alphaIn xs ys a b && alphaAllIn xs ys as bs
  | _, _ => false

end

def alpha (t u : Term) : Bool := alphaIn [] [] t u

end ClosedTypes.Term
