import ClosedTypes.Term
/-!
Terms around a place. Binders around the place catch the free variables of what is put there.
-/

namespace ClosedTypes.Term

/-- One form of a term around one of its parts. -/
inductive Frame where
  | fn (a : Term)
  | arg (f : Term)
  | body (x : Name) (dom : Option Ty)
  | ascribed (ty : Ty)
  | field (c : Name) (before after : List Term)
  | scrutinee (e : Name) (args : List Term)
  | rest (e : Name) (s : Term) (before after : List Term)
  | operand (op : Operator) (before after : List Term)
  | component (before after : List Term)
  | projected (i : UInt64)

def Frame.fill : Frame → Term → Term
  | fn a, t => app t a
  | arg f, t => app f t
  | body x dom, t => lam x dom t
  | ascribed ty, t => ann t ty
  | field c before after, t => ctor c (before ++ t :: after)
  | scrutinee e args, t => elim e t args
  | rest e s before after, t => elim e s (before ++ t :: after)
  | operand op before after, t => prim op (before ++ t :: after)
  | component before after, t => tuple (before ++ t :: after)
  | projected i, t => proj t i

def fill (frames : List Frame) (t : Term) : Term := frames.foldr Frame.fill t

end ClosedTypes.Term
