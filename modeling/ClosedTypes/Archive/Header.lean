import ClosedTypes.Name
/-!
Headers of variable length. One byte holds the kind of a node in its high bits and, below a spill
bit, either the size itself or, with the spill bit set, one less than the number of little-endian
size bytes that follow.
-/

namespace ClosedTypes.Archive

def littleEndian (n : Nat) : List UInt8 :=
  if h : n = 0 then [] else UInt8.ofNat n :: littleEndian (n / 256)
termination_by n
decreasing_by omega

def ofLittleEndian (bytes : List UInt8) : Nat := bytes.foldr (fun b n => b.toNat + 256 * n) 0

/-- A header with the bits `high` above the spill bit `spill`. -/
def header (high spill : UInt8) (size : UInt64) : List UInt8 :=
  if size < spill.toUInt64 then [high ||| size.toUInt8]
  else
    let bytes := littleEndian size.toNat
    (high ||| spill ||| UInt8.ofNat (bytes.length - 1)) :: bytes

def tag (kind : UInt8) (size : UInt64) : List UInt8 := header (kind <<< 4) 0x08 size

def count (size : UInt64) : List UInt8 := header 0 0x80 size

def zigzag (n : Int64) : UInt64 := ((n <<< 1) ^^^ (n >>> 63)).toUInt64

def ofZigzag (u : UInt64) : Int64 := (u >>> 1).toInt64 ^^^ -(u &&& 1).toInt64

end ClosedTypes.Archive
