import ClosedTypes.Archive.Header
import ClosedTypes.Archive.Utf8
import ClosedTypes.Defect
/-!
Readers of archived bytes. A reader that fails leaves the input where it stopped.
-/

namespace ClosedTypes.Archive

inductive NodeKind where
  | type
  | term
  | backing
  | entry
  deriving DecidableEq

inductive DecodeError where
  | noHeader
  | headerTooWide (width : Nat)
  | headerCut (width left : Nat)
  | nameCut (length : UInt64) (left : Nat)
  | nameEncoding (fault : Utf8.Fault)
  | unknownKind (node : NodeKind) (kind : UInt8)
  | metavarInType (id : UInt64)
  | unknownPrim (code : UInt64)
  | unknownOp (code : UInt64)
  | lambdaMarker (code : UInt64)
  | boolean (code : UInt64)
  | malformed (m : Malformed)

def NodeKind.text : NodeKind → String
  | type => "get_type"
  | term => "get_term"
  | backing => "get_backing"
  | entry => "get_entry"

def DecodeError.message : DecodeError → String
  | noHeader => "header: unexpected end of input"
  | headerTooWide width => "header: " ++ toString width ++ " size bytes do not fit a u64"
  | headerCut width left =>
    "header: need " ++ toString width ++ " size bytes, " ++ toString left ++ " left"
  | nameCut length left =>
    "get_name: need " ++ toString length.toNat ++ " bytes, have " ++ toString left
  | nameEncoding fault => "get_name: " ++ fault.message
  | unknownKind node kind => node.text ++ ": invalid flag " ++ toString kind.toNat
  | metavarInType id => "get_type: metavariable ?" ++ toString id.toNat ++ " in stored type"
  | unknownPrim code => "get_type: invalid primitive type " ++ toString code.toNat
  | unknownOp code => "get_term: invalid primitive op " ++ toString code.toNat
  | lambdaMarker code => "get_term: invalid lambda annotation marker " ++ toString code.toNat
  | boolean code => "get_term: invalid boolean " ++ toString code.toNat
  | malformed m => m.message

abbrev Reader := ExceptT DecodeError (StateM (List UInt8))

def Reader.read {α : Type} (r : Reader α) (bytes : List UInt8) :
    Except DecodeError α × List UInt8 :=
  r.run bytes

/-- The bits above the spill bit, in place, and the size. A header whose size bytes are missing
has used up its first byte. -/
def readHeader (spill : UInt8) : Reader (UInt8 × UInt64) := do
  match ← get with
  | [] => throw .noHeader
  | head :: rest =>
    set rest
    let mask := (spill <<< 1) - 1
    let low := head &&& mask
    let high := head &&& ~~~mask
    if low &&& spill = 0 then return (high, low.toUInt64)
    let width := (low &&& ~~~spill).toNat + 1
    if 8 < width then throw (.headerTooWide width)
    if rest.length < width then throw (.headerCut width rest.length)
    set (rest.drop width)
    return (high, UInt64.ofNat (ofLittleEndian (rest.take width)))

def readTag : Reader (UInt8 × UInt64) := do
  let (high, size) ← readHeader 0x08
  return (high >>> 4, size)

def readCount : Reader UInt64 := do
  let (_, size) ← readHeader 0x80
  return size

def readName : Reader Name := do
  let length ← readCount
  let bytes ← get
  if bytes.length < length.toNat then throw (.nameCut length bytes.length)
  set (bytes.drop length.toNat)
  match Utf8.decode (bytes.take length.toNat) with
  | .ok x => return x
  | .error fault => throw (.nameEncoding fault)

def readMany {α : Type} (item : Reader α) : Nat → Reader (List α)
  | 0 => return []
  | n + 1 => do
    let x ← item
    let xs ← readMany item n
    return x :: xs

/-- A reader that may call itself as deep as there are bytes left: whoever uses up a byte before
each call never gets to the bottom with anything left to read. -/
def nested {α : Type} (level : Nat → Reader α) : Reader α := do level (← get).length

end ClosedTypes.Archive
