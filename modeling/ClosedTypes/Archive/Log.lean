import ClosedTypes.Archive.Codec
import ClosedTypes.Block
/-!
Archived contexts: a version byte and the committed blocks in order. Loading replays each block
through the ordinary commit, so that a log which somebody edited is checked like fresh declarations.
-/

namespace ClosedTypes.Archive

def version : UInt8 := 1

inductive LoadError where
  | empty
  | version (found : UInt8)
  | unreadable (e : DecodeError)
  | clash (e : NameFault)
  | rejected (block : Nat) (errors : List Error)
  | trailing (left : Nat)

def LoadError.message : LoadError → String
  | empty => "decode error: from_bytes: empty input"
  | version found => "decode error: from_bytes: unsupported version " ++ toString found.toNat
  | unreadable e => "decode error: " ++ e.message
  | clash e => e.message
  | rejected block errors =>
    "decode error: from_bytes: block " ++ toString block ++ " rejected: " ++ "; ".intercalate
      (errors.map Error.message)
  | trailing left => "decode error: from_bytes: " ++ toString left ++ " trailing bytes"

def encodeBlock (block : Block) : List UInt8 := count (lengthOf block) ++ block.flatMap encodeEntry

def save (ctx : Context) : List UInt8 :=
  version :: count (lengthOf ctx.blockEntries) ++ ctx.blockEntries.flatMap encodeBlock

/-- The entries of a block as they were stored. Whether they can stand together is not looked at
yet. -/
def readBlock : Reader (List Entry) := do readMany readEntry (← readCount).toNat

def replayBlock (ctx : Context) (i : Nat) (entries : List Entry) : Except LoadError Context :=
  match ctx.stageAll [] entries with
  | .error e => .error (.clash e)
  | .ok block =>
    match ctx.commit block with
    | (.ok _, ctx) => .ok ctx
    | (.error errors, _) => .error (.rejected i errors)

def replay (i : Nat) : Nat → Context → List UInt8 → Except LoadError Context
  | 0, ctx, [] => .ok ctx
  | 0, _, left => .error (.trailing left.length)
  | n + 1, ctx, bytes =>
    match readBlock.read bytes with
    | (.error e, _) => .error (.unreadable e)
    | (.ok entries, rest) =>
      match replayBlock ctx i entries with
      | .error e => .error e
      | .ok ctx => replay (i + 1) n ctx rest

def load : List UInt8 → Except LoadError Context
  | [] => .error .empty
  | v :: bytes =>
    if v = version then
      match readCount.read bytes with
      | (.error e, _) => .error (.unreadable e)
      | (.ok n, rest) => replay 0 n.toNat .empty rest
    else .error (.version v)

end ClosedTypes.Archive
