import ClosedTypes.Archive.Reader
import ClosedTypes.Declaration.Signature
/-!
The archived form of names, types, terms and declarations. Each node is a tag, whose size holds the
number of its parts or a small payload, followed by its parts. A constructor or an eliminator is
stored as its name and signature alone.
-/

namespace ClosedTypes.Archive

def lengthOf {α : Type} (xs : List α) : UInt64 := UInt64.ofNat xs.length

def encodeName (x : Name) : List UInt8 :=
  let bytes := Utf8.encode x
  count (lengthOf bytes) ++ bytes

mutual

def encodeTy : Ty → List UInt8
  | .var x => tag 0 0 ++ encodeName x
  | .metavar i => tag 1 i.toUInt64
  | .const c args => tag 2 (lengthOf args) ++ encodeName c ++ encodeTys args
  | .arrow d c => tag 3 0 ++ encodeTy d ++ encodeTy c
  | .prim .int => tag 4 0
  | .prim .bool => tag 4 1
  | .tuple elems => tag 5 (lengthOf elems) ++ encodeTys elems

def encodeTys : List Ty → List UInt8
  | [] => []
  | t :: ts => encodeTy t ++ encodeTys ts

end

/-- A metavariable is never read: it means something only to the checker that made it. -/
def readTyWithin : Nat → Reader Ty
  | 0 => throw .noHeader
  | depth + 1 => do
    let (kind, size) ← readTag
    match kind with
    | 0 => return .var (← readName)
    | 1 => throw (.metavarInType size)
    | 2 =>
      let c ← readName
      return .const c (← readMany (readTyWithin depth) size.toNat)
    | 3 =>
      let d ← readTyWithin depth
      return .arrow d (← readTyWithin depth)
    | 4 =>
      match size with
      | 0 => return .prim .int
      | 1 => return .prim .bool
      | code => throw (.unknownPrim code)
    | 5 => return .tuple (← readMany (readTyWithin depth) size.toNat)
    | kind => throw (.unknownKind .type kind)

def readTy : Reader Ty := nested readTyWithin

def opCode (op : Operator) : UInt64 := UInt64.ofNat (Operator.all.idxOf op)

mutual

def encodeTerm : Term → List UInt8
  | .var x => tag 0 0 ++ encodeName x
  | .app f a => tag 1 0 ++ encodeTerm f ++ encodeTerm a
  | .lam x none b => tag 2 0 ++ encodeName x ++ encodeTerm b
  | .lam x (some d) b => tag 2 1 ++ encodeName x ++ encodeTy d ++ encodeTerm b
  | .ann t ty => tag 3 0 ++ encodeTerm t ++ encodeTy ty
  | .ctor c args => tag 4 (lengthOf args) ++ encodeName c ++ encodeTerms args
  | .elim e s args => tag 5 (lengthOf args) ++ encodeName e ++ encodeTerm s ++ encodeTerms args
  | .lit (.int n) => tag 6 (zigzag n)
  | .lit (.bool b) => tag 7 (if b then 1 else 0)
  | .prim op args => tag 8 (opCode op) ++ count (lengthOf args) ++ encodeTerms args
  | .tuple elems => tag 9 (lengthOf elems) ++ encodeTerms elems
  | .proj t i => tag 10 i ++ encodeTerm t

def encodeTerms : List Term → List UInt8
  | [] => []
  | t :: ts => encodeTerm t ++ encodeTerms ts

end

def readTermWithin : Nat → Reader Term
  | 0 => throw .noHeader
  | depth + 1 => do
    let (kind, size) ← readTag
    match kind with
    | 0 => return .var (← readName)
    | 1 =>
      let f ← readTermWithin depth
      return .app f (← readTermWithin depth)
    | 2 =>
      let x ← readName
      match size with
      | 0 => return .lam x none (← readTermWithin depth)
      | 1 =>
        let d ← readTy
        return .lam x (some d) (← readTermWithin depth)
      | code => throw (.lambdaMarker code)
    | 3 =>
      let t ← readTermWithin depth
      return .ann t (← readTy)
    | 4 =>
      let c ← readName
      return .ctor c (← readMany (readTermWithin depth) size.toNat)
    | 5 =>
      let e ← readName
      let s ← readTermWithin depth
      return .elim e s (← readMany (readTermWithin depth) size.toNat)
    | 6 => return .int (ofZigzag size)
    | 7 =>
      match size with
      | 0 => return .bool false
      | 1 => return .bool true
      | code => throw (.boolean code)
    | 8 =>
      match Operator.all[size.toNat]? with
      | none => throw (.unknownOp size)
      | some op =>
        let n ← readCount
        return .prim op (← readMany (readTermWithin depth) n.toNat)
    | 9 => return .tuple (← readMany (readTermWithin depth) size.toNat)
    | 10 => return .proj (← readTermWithin depth) size
    | kind => throw (.unknownKind .term kind)

def readTerm : Reader Term := nested readTermWithin

mutual

def encodeBacking : Backing → List UInt8
  | .int => tag 0 0
  | .bool => tag 1 0
  | .tuple elems => tag 2 (lengthOf elems) ++ encodeBackings elems

def encodeBackings : List Backing → List UInt8
  | [] => []
  | b :: bs => encodeBacking b ++ encodeBackings bs

end

def readBackingWithin : Nat → Reader Backing
  | 0 => throw .noHeader
  | depth + 1 => do
    let (kind, size) ← readTag
    match kind with
    | 0 => return .int
    | 1 => return .bool
    | 2 => return .tuple (← readMany (readBackingWithin depth) size.toNat)
    | kind => throw (.unknownKind .backing kind)

def readBacking : Reader Backing := nested readBackingWithin

def encodeEntry : Entry → List UInt8
  | .type d => tag 0 d.arity ++ encodeName d.name
  | .constructor d => tag 1 0 ++ encodeName d.name ++ encodeTy d.signature
  | .eliminator d => tag 2 0 ++ encodeName d.name ++ encodeTy d.signature
  | .equation d =>
    tag 3 (lengthOf d.binders) ++ encodeName d.eliminator ++ encodeName d.constructor ++
      d.binders.flatMap encodeName ++ encodeTerm d.rhs
  | .representation d => tag 4 0 ++ encodeName d.typeName ++ encodeBacking d.backing
  | .implementation d => tag 5 0 ++ encodeName d.op ++ encodeTerm d.body

def readEntry : Reader Entry := do
  let (kind, size) ← readTag
  match kind with
  | 0 => return .type { name := ← readName, arity := size }
  | 1 =>
    let name ← readName
    match Constructor.ofSignature name (← readTy) with
    | .ok d => return .constructor d
    | .error m => throw (.malformed m)
  | 2 =>
    let name ← readName
    match Eliminator.ofSignature name (← readTy) with
    | .ok d => return .eliminator d
    | .error m => throw (.malformed m)
  | 3 =>
    let eliminator ← readName
    let constructor ← readName
    let binders ← readMany readName size.toNat
    return .equation { eliminator, constructor, binders, rhs := ← readTerm }
  | 4 =>
    let typeName ← readName
    return .representation { typeName, backing := ← readBacking }
  | 5 =>
    let op ← readName
    return .implementation { op, body := ← readTerm }
  | kind => throw (.unknownKind .entry kind)

end ClosedTypes.Archive
