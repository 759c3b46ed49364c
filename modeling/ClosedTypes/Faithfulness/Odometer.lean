import ClosedTypes.Term
/-!
The sample combinations of several variables, counted like the miles of an odometer: each variable
has a wheel of samples, and a wheel that comes round turns the next one.
-/

namespace ClosedTypes.Faithfulness

structure Wheel where
  name : Name
  pool : List Literal
  digit : Fin pool.length

namespace Wheel

def first? (x : Name) (pool : List Literal) : Option Wheel :=
  if h : 0 < pool.length then some ⟨x, pool, ⟨0, h⟩⟩ else none

def next? (w : Wheel) : Option Wheel :=
  if h : w.digit + 1 < w.pool.length then some { w with digit := ⟨w.digit + 1, h⟩ } else none

def rewind (w : Wheel) : Wheel := { w with digit := ⟨0, w.digit.pos⟩ }

def binding (w : Wheel) : Name × Term := (w.name, .lit (w.pool.get w.digit))

end Wheel

/-- The next combination. The first wheel turns fastest. -/
def advance : List Wheel → List Wheel
  | [] => []
  | w :: ws =>
    match w.next? with
    | some w => w :: ws
    | none => w.rewind :: advance ws

def combinations? (wheels : List Wheel) : Option Nat :=
  wheels.foldlM (fun n w => if n * w.pool.length < UInt64.size then
    some (n * w.pool.length) else none) 1

/-- How many combinations are tried: all of them, but no more than the limit. -/
def caseCount (limit : Nat) (wheels : List Wheel) : Nat :=
  min ((combinations? wheels).getD (UInt64.size - 1)) limit

end ClosedTypes.Faithfulness
