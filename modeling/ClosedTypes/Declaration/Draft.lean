import ClosedTypes.Declaration.Signature
/-!
Declarations as their author writes them: without the parts of an entry that can be read off a
signature.
-/

namespace ClosedTypes

inductive Draft where
  | type (name : Name) (arity : UInt64)
  | constructor (name : Name) (signature : Ty)
  | eliminator (name : Name) (signature : Ty)
  | equation (eliminator constructor : Name) (binders : List Name) (rhs : Term)
  | representation (typeName : Name) (backing : Backing)
  | implementation (op : Name) (body : Term)

def Draft.entry : Draft → Except Malformed Entry
  | type name arity => .ok (.type { name, arity })
  | constructor name signature => .constructor <$> Constructor.ofSignature name signature
  | eliminator name signature => .eliminator <$> Eliminator.ofSignature name signature
  | equation e c binders rhs => .ok (.equation ⟨e, c, binders, rhs⟩)
  | representation typeName backing => .ok (.representation { typeName, backing })
  | implementation op body => .ok (.implementation { op, body })

def Entry.draft : Entry → Draft
  | type d => .type d.name d.arity
  | constructor d => .constructor d.name d.signature
  | eliminator d => .eliminator d.name d.signature
  | equation d => .equation d.eliminator d.constructor d.binders d.rhs
  | representation d => .representation d.typeName d.backing
  | implementation d => .implementation d.op d.body

end ClosedTypes
