import ClosedTypes.Ty
/-!
Metavariables and their solutions, with first-order unification. No metavariable is ever solved by a
type that leads back to it, so a chain of solutions is never longer than the number of
metavariables; that number bounds every walk along them.
-/

namespace ClosedTypes

structure Solutions where
  slots : Array (Option Ty)

namespace Solutions

def empty : Solutions := ⟨#[]⟩

def size (s : Solutions) : Nat := s.slots.size

def solution? (s : Solutions) (i : UInt32) : Option Ty := s.slots[i.toNat]?.join

def fresh (s : Solutions) : Ty × Solutions := (.metavar (UInt32.ofNat s.size), ⟨s.slots.push none⟩)

def resolveWithin (s : Solutions) : Nat → Ty → Ty
  | n + 1, .metavar i =>
    match s.solution? i with
    | some t => s.resolveWithin n t
    | none => .metavar i
  | _, t => t

/-- The type with the solutions at its head followed to their end. -/
def resolve (s : Solutions) (t : Ty) : Ty := s.resolveWithin s.size t

def zonkWithin (s : Solutions) : Nat → Ty → Ty
  | 0, t => t
  | n + 1, t => t.substMetavars fun i => (s.solution? i).map (s.zonkWithin n)

def zonk (s : Solutions) (t : Ty) : Ty := s.zonkWithin s.size t

def occurs (s : Solutions) (i : UInt32) (t : Ty) : Bool := (s.zonk t).mentionsMetavar i

/-- Solves `i`, unless `t` leads back to `i` or there is no such metavariable. -/
def assign (s : Solutions) (i : UInt32) (t : Ty) : Bool × Solutions :=
  if s.occurs i t then (false, s)
  else if i.toNat < s.size then (true, ⟨s.slots.setIfInBounds i.toNat (some t)⟩)
  else (false, s)

def isSolved (s : Solutions) : Ty → Bool
  | .metavar i => (s.solution? i).isSome
  | _ => false

mutual

def unifyWith (deeper : Ty → Ty → Solutions → Bool × Solutions) (a b : Ty) (s : Solutions) :
    Bool × Solutions :=
  if s.isSolved a || s.isSolved b then deeper (s.resolve a) (s.resolve b) s
  else
    match a, b with
    | .metavar i, .metavar j => if i = j then (true, s) else s.assign i (.metavar j)
    | .metavar i, b => s.assign i b
    | a, .metavar j => s.assign j a
    | .var x, .var y => (x = y, s)
    | .prim p, .prim q => (p = q, s)
    | .const c as, .const d bs =>
      if c = d ∧ as.length = bs.length then unifyAllWith deeper as bs s else (false, s)
    | .tuple as, .tuple bs =>
      if as.length = bs.length then unifyAllWith deeper as bs s else (false, s)
    | .arrow a b, .arrow c d =>
      match unifyWith deeper a c s with
      | (true, s) => unifyWith deeper b d s
      | (false, s) => (false, s)
    | _, _ => (false, s)

def unifyAllWith (deeper : Ty → Ty → Solutions → Bool × Solutions) (as bs : List Ty)
    (s : Solutions) :
    Bool × Solutions :=
  match as, bs with
  | a :: as, b :: bs =>
    match unifyWith deeper a b s with
    | (true, s) => unifyAllWith deeper as bs s
    | (false, s) => (false, s)
  | _, _ => (true, s)

end

def unifyWithin : Nat → Ty → Ty → Solutions → Bool × Solutions
  | 0 => fun _ _ s => (false, s)
  | n + 1 => unifyWith (unifyWithin n)

/-- Makes two types equal if that can be done, and keeps what was solved on the way if it cannot.
On the way down into the types each side meets each metavariable at most once. -/
def unify (s : Solutions) (a b : Ty) : Bool × Solutions := unifyWithin (2 * s.size + 1) a b s

end Solutions

end ClosedTypes
