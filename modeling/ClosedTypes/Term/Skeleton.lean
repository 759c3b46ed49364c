import ClosedTypes.Term.Nameless
/-!
Terms up to bound names in which all forms but variables and binders look alike. Variables under
binders can be replaced here, which nameless forms leave out, and what holds of every form has to be
said once.
-/

namespace ClosedTypes

inductive Head where
  | app
  | ann (ty : Ty)
  | ctor (c : Name)
  | elim (e : Name)
  | lit (l : Literal)
  | prim (op : Operator)
  | tuple
  | proj (i : UInt64)

inductive Variable where
  | bound (i : Nat)
  | free (x : Name)

namespace Variable

def up : Variable → Variable
  | bound i => bound (i + 1)
  | free x => free x

def push {α : Type} (a : α) (f : Variable → α) : Variable → α
  | bound 0 => a
  | bound (i + 1) => f (bound i)
  | free x => f (free x)

end Variable

inductive Skeleton where
  | var (v : Variable)
  | lam (body : Skeleton)
  | node (h : Head) (parts : List Skeleton)

namespace Skeleton

mutual

def rename (ρ : Variable → Variable) : Skeleton → Skeleton
  | var v => var (ρ v)
  | lam b => lam (rename (Variable.push (.bound 0) fun v => (ρ v).up) b)
  | node h ts => node h (renameAll ρ ts)

def renameAll (ρ : Variable → Variable) : List Skeleton → List Skeleton
  | [] => []
  | t :: ts => rename ρ t :: renameAll ρ ts

end

/-- A replacement of variables below a binder. -/
def under (θ : Variable → Skeleton) : Variable → Skeleton :=
  Variable.push (var (.bound 0)) fun v => (θ v).rename Variable.up

mutual

def replace (θ : Variable → Skeleton) : Skeleton → Skeleton
  | var v => θ v
  | lam b => lam (replace (under θ) b)
  | node h ts => node h (replaceAll θ ts)

def replaceAll (θ : Variable → Skeleton) : List Skeleton → List Skeleton
  | [] => []
  | t :: ts => replace θ t :: replaceAll θ ts

end

def instantiate (body a : Skeleton) : Skeleton := body.replace (Variable.push a var)

def int (n : Int64) : Skeleton := node (.lit (.int n)) []

def bool (b : Bool) : Skeleton := node (.lit (.bool b)) []

def app (f a : Skeleton) : Skeleton := node .app [f, a]

def prim (op : Operator) (args : List Skeleton) : Skeleton := node (.prim op) args

def applyAll (f : Skeleton) (args : List Skeleton) : Skeleton := args.foldl app f

end Skeleton

namespace Nameless

mutual

def skeleton : Nameless → Skeleton
  | bound i => .var (.bound i)
  | free x => .var (.free x)
  | app f a => .node .app [skeleton f, skeleton a]
  | lam _ b => .lam (skeleton b)
  | ann t ty => .node (.ann ty) [skeleton t]
  | ctor c args => .node (.ctor c) (skeletons args)
  | elim e s args => .node (.elim e) (skeleton s :: skeletons args)
  | lit l => .node (.lit l) []
  | prim op args => .node (.prim op) (skeletons args)
  | tuple elems => .node .tuple (skeletons elems)
  | proj t i => .node (.proj i) [skeleton t]

def skeletons : List Nameless → List Skeleton
  | [] => []
  | t :: ts => skeleton t :: skeletons ts

end

end Nameless

def Term.skeleton (xs : List Name) (t : Term) : Skeleton := (t.namelessIn xs).skeleton

end ClosedTypes
