import ClosedTypes.Name
/-!
UTF-8 with an account of the first fault: where it is and how many bytes it takes up.
-/

namespace ClosedTypes.Utf8

inductive Fault where
  /-- The `length` bytes from position `index` on cannot begin a character together with the byte
  behind them. -/
  | invalid (length index : Nat)
  /-- The input ends inside a character that begins at `index`. -/
  | incomplete (index : Nat)
  deriving DecidableEq

def Fault.message : Fault → String
  | invalid length index =>
    "invalid utf-8 sequence of " ++ toString length ++ " bytes from index " ++ toString index
  | incomplete index => "incomplete utf-8 byte sequence from index " ++ toString index

def isTail (b : UInt8) : Bool := 0x80 ≤ b && b ≤ 0xBF

/-- Which bytes may follow a lead byte: fewer than the tail bytes where the rest would be an
overlong form, a surrogate or a number above the last character. -/
def isSecond (lead b : UInt8) : Bool :=
  if lead = 0xE0 then 0xA0 ≤ b && b ≤ 0xBF
  else if lead = 0xED then 0x80 ≤ b && b ≤ 0x9F
  else if lead = 0xF0 then 0x90 ≤ b && b ≤ 0xBF
  else if lead = 0xF4 then 0x80 ≤ b && b ≤ 0x8F
  else isTail b

def width (lead : UInt8) : Nat :=
  if lead < 0x80 then 1
  else if lead < 0xC2 then 0
  else if lead < 0xE0 then 2
  else if lead < 0xF0 then 3
  else if lead < 0xF5 then 4
  else 0

def spell (lead : Nat) (tail : List UInt8) : Nat :=
  tail.foldl (fun n b => n * 64 + (b.toNat - 0x80)) lead

def decodeFrom (index : Nat) : List UInt8 → Except Fault (List Char)
  | [] => .ok []
  | a :: rest =>
    match width a, rest with
    | 1, rest => (Char.ofNat a.toNat :: ·) <$> decodeFrom (index + 1) rest
    | 2, [] => .error (.incomplete index)
    | 2, b :: rest =>
      if isSecond a b then
        (Char.ofNat (spell (a.toNat - 0xC0) [b]) :: ·) <$> decodeFrom (index + 2) rest
      else .error (.invalid 1 index)
    | 3, [] => .error (.incomplete index)
    | 3, b :: rest =>
      if isSecond a b then
        match rest with
        | [] => .error (.incomplete index)
        | c :: rest =>
          if isTail c then
            (Char.ofNat (spell (a.toNat - 0xE0) [b, c]) :: ·) <$> decodeFrom (index + 3) rest
          else .error (.invalid 2 index)
      else .error (.invalid 1 index)
    | 4, [] => .error (.incomplete index)
    | 4, b :: rest =>
      if isSecond a b then
        match rest with
        | [] => .error (.incomplete index)
        | c :: rest =>
          if isTail c then
            match rest with
            | [] => .error (.incomplete index)
            | d :: rest =>
              if isTail d then
                (Char.ofNat (spell (a.toNat - 0xF0) [b, c, d]) :: ·) <$> decodeFrom (index + 4) rest
              else .error (.invalid 3 index)
          else .error (.invalid 2 index)
      else .error (.invalid 1 index)
    | _, _ => .error (.invalid 1 index)

def decode (bytes : List UInt8) : Except Fault String := String.ofList <$> decodeFrom 0 bytes

def encode (s : String) : List UInt8 := s.toList.flatMap String.utf8EncodeChar

end ClosedTypes.Utf8
