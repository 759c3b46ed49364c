import ClosedTypes.Archive.Log
/-!
What reading costs: the nodes of what is read, how often an item of a list is tried, and the readers
of nested values as recursions that no depth bounds.
-/

namespace ClosedTypes

namespace Ty

mutual

def nodes : Ty → Nat
  | var _ => 1
  | metavar _ => 1
  | prim _ => 1
  | const _ args => nodesAll args + 1
  | arrow d c => nodes d + nodes c + 1
  | tuple elems => nodesAll elems + 1

def nodesAll : List Ty → Nat
  | [] => 0
  | t :: ts => nodes t + nodesAll ts

end

theorem nodes_pos (t : Ty) : 0 < t.nodes := by
  cases t <;> exact Nat.succ_pos _

end Ty

namespace Term

mutual

def nodes : Term → Nat
  | var _ => 1
  | app f a => nodes f + nodes a + 1
  | lam _ none b => nodes b + 2
  | lam _ (some d) b => d.nodes + nodes b + 2
  | ann t ty => nodes t + ty.nodes + 1
  | ctor _ args => nodesAll args + 1
  | elim _ s args => nodes s + nodesAll args + 1
  | lit _ => 1
  | prim _ args => nodesAll args + 1
  | tuple elems => nodesAll elems + 1
  | proj t _ => nodes t + 1

def nodesAll : List Term → Nat
  | [] => 0
  | t :: ts => nodes t + nodesAll ts

end

theorem nodes_pos (t : Term) : 0 < t.nodes := by
  cases t with
  | lam x d b => cases d <;> exact Nat.succ_pos _
  | _ => exact Nat.succ_pos _

end Term

namespace Backing

mutual

def nodes : Backing → Nat
  | int => 1
  | bool => 1
  | tuple elems => nodesAll elems + 1

def nodesAll : List Backing → Nat
  | [] => 0
  | b :: bs => nodes b + nodesAll bs

end

theorem nodes_pos (b : Backing) : 0 < b.nodes := by
  cases b <;> exact Nat.succ_pos _

end Backing

def Entry.nodes : Entry → Nat
  | .type _ => 0
  | .constructor d => d.signature.nodes
  | .eliminator d => d.signature.nodes
  | .equation d => d.binders.length + d.rhs.nodes
  | .representation d => d.backing.nodes
  | .implementation d => d.body.nodes

namespace Archive

/-- `readMany` and the number of items it tries to read, the one that cannot be read among them. -/
def readManyTally {α : Type} (item : Reader α) :
    Nat → List UInt8 → (Except DecodeError (List α) × List UInt8) × Nat
  | 0, bytes => ((.ok [], bytes), 0)
  | n + 1, bytes =>
    match item.read bytes with
    | (.error e, rest) => ((.error e, rest), 1)
    | (.ok x, rest) =>
      let (answer, tries) := readManyTally item n rest
      ((answer.1.map (x :: ·), answer.2), tries + 1)

def replayTally (i : Nat) : Nat → Context → List UInt8 → Except LoadError Context × Nat
  | 0, ctx, [] => (.ok ctx, 0)
  | 0, _, left => (.error (.trailing left.length), 0)
  | n + 1, ctx, bytes =>
    match readBlock.read bytes with
    | (.error e, _) => (.error (.unreadable e), 1)
    | (.ok entries, rest) =>
      match replayBlock ctx i entries with
      | .error e => (.error e, 1)
      | .ok ctx =>
        let (answer, tries) := replayTally (i + 1) n ctx rest
        (answer, tries + 1)

def loadTally : List UInt8 → Except LoadError Context × Nat
  | [] => (.error .empty, 0)
  | v :: bytes =>
    if v = version then
      match readCount.read bytes with
      | (.error e, _) => (.error (.unreadable e), 0)
      | (.ok n, rest) => replayTally 0 n.toNat .empty rest
    else (.error (.version v), 0)

def tyNode (parts : Reader Ty) : Reader Ty := do
  let (kind, size) ← readTag
  match kind with
  | 0 => return .var (← readName)
  | 1 => throw (.metavarInType size)
  | 2 =>
    let c ← readName
    return .const c (← readMany parts size.toNat)
  | 3 =>
    let d ← parts
    return .arrow d (← parts)
  | 4 =>
    match size with
    | 0 => return .prim .int
    | 1 => return .prim .bool
    | code => throw (.unknownPrim code)
  | 5 => return .tuple (← readMany parts size.toNat)
  | kind => throw (.unknownKind .type kind)

def termNode (parts : Reader Term) : Reader Term := do
  let (kind, size) ← readTag
  match kind with
  | 0 => return .var (← readName)
  | 1 =>
    let f ← parts
    return .app f (← parts)
  | 2 =>
    let x ← readName
    match size with
    | 0 => return .lam x none (← parts)
    | 1 =>
      let d ← readTy
      return .lam x (some d) (← parts)
    | code => throw (.lambdaMarker code)
  | 3 =>
    let t ← parts
    return .ann t (← readTy)
  | 4 =>
    let c ← readName
    return .ctor c (← readMany parts size.toNat)
  | 5 =>
    let e ← readName
    let s ← parts
    return .elim e s (← readMany parts size.toNat)
  | 6 => return .int (ofZigzag size)
  | 7 =>
    match size with
    | 0 => return .bool false
    | 1 => return .bool true
    | code => throw (.boolean code)
  | 8 =>
    match Operator.all[size.toNat]? with
    | none => throw (.unknownOp size)
    | some op =>
      let n ← readCount
      return .prim op (← readMany parts n.toNat)
  | 9 => return .tuple (← readMany parts size.toNat)
  | 10 => return .proj (← parts) size
  | kind => throw (.unknownKind .term kind)

def backingNode (parts : Reader Backing) : Reader Backing := do
  let (kind, size) ← readTag
  match kind with
  | 0 => return .int
  | 1 => return .bool
  | 2 => return .tuple (← readMany parts size.toNat)
  | kind => throw (.unknownKind .backing kind)

theorem readTyWithin_succ (depth : Nat) : readTyWithin (depth + 1) = tyNode (readTyWithin depth) :=
  rfl

theorem readTermWithin_succ (depth : Nat) :
    readTermWithin (depth + 1) = termNode (readTermWithin depth) := rfl

theorem readBackingWithin_succ (depth : Nat) :
    readBackingWithin (depth + 1) = backingNode (readBackingWithin depth) := rfl

end Archive

end ClosedTypes
