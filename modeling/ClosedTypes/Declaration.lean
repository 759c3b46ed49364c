import ClosedTypes.Term
/-!
Declarations. Types, constructors and eliminators claim a name; equations, representations and
implementations say something about names that are claimed elsewhere.
-/

namespace ClosedTypes

structure DataType where
  name : Name
  arity : UInt64

structure Constructor where
  name : Name
  signature : Ty
  owner : Name

/-- An eliminator of `owner`. A case eliminator has a motive, the variable its branches and its
result share; an observer has none. -/
structure Eliminator where
  name : Name
  signature : Ty
  owner : Name
  motive : Option Name

/-- `eliminator (constructor x₁ …) y₁ … = rhs`, the binders being `x₁ … y₁ …`. -/
structure Equation where
  eliminator : Name
  constructor : Name
  binders : List Name
  rhs : Term

inductive Backing where
  | int
  | bool
  | tuple (elems : List Backing)
  deriving Inhabited

structure Representation where
  typeName : Name
  backing : Backing

structure Implementation where
  op : Name
  body : Term

inductive Entry where
  | type (d : DataType)
  | constructor (d : Constructor)
  | eliminator (d : Eliminator)
  | equation (d : Equation)
  | representation (d : Representation)
  | implementation (d : Implementation)

inductive EntryKind where
  | type
  | constructor
  | eliminator
  | equation
  | representation
  | implementation
  deriving DecidableEq

def EntryKind.text : EntryKind → String
  | type => "type"
  | constructor => "constructor"
  | eliminator => "eliminator"
  | equation => "equation"
  | representation => "representation"
  | implementation => "implementation"

namespace Entry

def kind : Entry → EntryKind
  | type _ => .type
  | constructor _ => .constructor
  | eliminator _ => .eliminator
  | equation _ => .equation
  | representation _ => .representation
  | implementation _ => .implementation

def name? : Entry → Option Name
  | type d => some d.name
  | constructor d => some d.name
  | eliminator d => some d.name
  | _ => none

end Entry

namespace Backing

mutual

def toTy : Backing → Ty
  | int => .prim .int
  | bool => .prim .bool
  | tuple elems => .tuple (toTys elems)

def toTys : List Backing → List Ty
  | [] => []
  | b :: bs => toTy b :: toTys bs

end

end Backing

end ClosedTypes
