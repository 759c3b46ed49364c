import ClosedTypes.Declaration.Signature
import ClosedTypes.Error
/-!
Contexts: a log of committed declarations and the indices into it. Blocks are the only way in, and a
block that fails takes the log back to where it began.
-/

namespace ClosedTypes

/-- What an entry lays claim to. Two equations for one pair are not refused here but found to
overlap at commit. -/
inductive Claim where
  | name (x : Name)
  | representation (typeName : Name)
  | implementation (op : Name)
  deriving DecidableEq

def Claim.subject : Claim → Name
  | name x => x
  | representation x => x
  | implementation x => x

def Entry.claim? : Entry → Option Claim
  | .type d => some (.name d.name)
  | .constructor d => some (.name d.name)
  | .eliminator d => some (.name d.name)
  | .equation _ => none
  | .representation d => some (.representation d.typeName)
  | .implementation d => some (.implementation d.op)

structure Span where
  start : Nat
  stop : Nat
  deriving DecidableEq

structure Context where
  entries : List Entry
  blocks : List Span
  names : Index Name Nat
  constructorLists : Index Name (List Name)
  eliminatorLists : Index Name (List Name)
  equations : Index (Name × Name) Nat
  representations : Index Name Nat
  implementations : Index Name Nat

namespace Context

def empty : Context where
  entries := []
  blocks := []
  names := .empty
  constructorLists := .empty
  eliminatorLists := .empty
  equations := .empty
  representations := .empty
  implementations := .empty

def size (ctx : Context) : Nat := ctx.entries.length

def contains (ctx : Context) (x : Name) : Bool := ctx.names.contains x

def position? (ctx : Context) (x : Name) : Option Nat := ctx.names.find? x

def find? (ctx : Context) (x : Name) : Option Entry := do ctx.entries[← ctx.names.find? x]?

def lookup (ctx : Context) (x : Name) : Except Error Entry :=
  match ctx.find? x with
  | some e => .ok e
  | none => .error (.name (.unknown x))

def dataType (ctx : Context) (x : Name) : Except Error DataType := do
  match ← ctx.lookup x with
  | .type d => .ok d
  | e => .error (.malformed ⟨x, .wrongKind e.kind .type⟩)

def constructor (ctx : Context) (x : Name) : Except Error Constructor := do
  match ← ctx.lookup x with
  | .constructor d => .ok d
  | e => .error (.malformed ⟨x, .wrongKind e.kind .constructor⟩)

def eliminator (ctx : Context) (x : Name) : Except Error Eliminator := do
  match ← ctx.lookup x with
  | .eliminator d => .ok d
  | e => .error (.malformed ⟨x, .wrongKind e.kind .eliminator⟩)

def declaresType (ctx : Context) (x : Name) : Bool :=
  match ctx.find? x with
  | some (.type _) => true
  | _ => false

def constructors (ctx : Context) (typeName : Name) : List Name :=
  (ctx.constructorLists.find? typeName).getD []

def eliminators (ctx : Context) (typeName : Name) : List Name :=
  (ctx.eliminatorLists.find? typeName).getD []

def operations (ctx : Context) (typeName : Name) : List Name :=
  ctx.constructors typeName ++ ctx.eliminators typeName

def equation? (ctx : Context) (e c : Name) : Option Equation := do
  match ← ctx.entries[← ctx.equations.find? (e, c)]? with
  | .equation d => some d
  | _ => none

def representation? (ctx : Context) (typeName : Name) : Option Representation := do
  match ← ctx.entries[← ctx.representations.find? typeName]? with
  | .representation d => some d
  | _ => none

def implementation? (ctx : Context) (op : Name) : Option Implementation := do
  match ← ctx.entries[← ctx.implementations.find? op]? with
  | .implementation d => some d
  | _ => none

def owner? (ctx : Context) (op : Name) : Option Name :=
  match ctx.find? op with
  | some (.constructor d) => some d.owner
  | some (.eliminator d) => some d.owner
  | _ => none

def blockEntries (ctx : Context) : List (List Entry) :=
  ctx.blocks.map fun s => (ctx.entries.take s.stop).drop s.start

def holds (ctx : Context) : Claim → Bool
  | .name x => ctx.names.contains x
  | .representation x => ctx.representations.contains x
  | .implementation x => ctx.implementations.contains x

/-- An entry is fresh when nobody, in the context or among the staged entries, has laid its claim
before. -/
def ensureFresh (ctx : Context) (staged : List Entry) (entry : Entry) : Except NameFault Unit :=
  match entry.claim? with
  | none => .ok ()
  | some claim =>
    if ctx.holds claim || staged.any (·.claim? = some claim) then
      .error (.duplicate claim.subject)
    else
      .ok ()

def install (ctx : Context) (entry : Entry) : Context :=
  let i := ctx.size
  let ctx := { ctx with entries := ctx.entries ++ [entry] }
  match entry with
  | .type d => { ctx with names := ctx.names.insert d.name i }
  | .constructor d =>
    { ctx with
      names := ctx.names.insert d.name i
      constructorLists :=
        ctx.constructorLists.insert d.owner (ctx.constructors d.owner ++ [d.name]) }
  | .eliminator d =>
    { ctx with
      names := ctx.names.insert d.name i
      eliminatorLists := ctx.eliminatorLists.insert d.owner (ctx.eliminators d.owner ++ [d.name]) }
  | .equation d => { ctx with equations := ctx.equations.insert (d.eliminator, d.constructor) i }
  | .representation d => { ctx with representations := ctx.representations.insert d.typeName i }
  | .implementation d => { ctx with implementations := ctx.implementations.insert d.op i }

def installAll (ctx : Context) (entries : List Entry) : Context := entries.foldl install ctx

/-- The context without the named entries from `mark` on. No other entries may stand there. -/
def rollback (ctx : Context) (mark : Nat) : Context :=
  let names := ctx.names.filter fun _ i => i < mark
  let prune (lists : Index Name (List Name)) : Index Name (List Name) :=
    (lists.mapValues (·.filter names.contains)).filter fun owner ops =>
      !ops.isEmpty && names.contains owner
  { ctx with
    entries := ctx.entries.take mark
    names
    constructorLists := prune ctx.constructorLists
    eliminatorLists := prune ctx.eliminatorLists }

def sealBlock (ctx : Context) (mark : Nat) : Context :=
  if mark < ctx.size then { ctx with blocks := ctx.blocks ++ [⟨mark, ctx.size⟩] } else ctx

end Context

end ClosedTypes
