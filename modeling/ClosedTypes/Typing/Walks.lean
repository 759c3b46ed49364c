import ClosedTypes.Typing.Solutions
import Mathlib.Logic.Function.Iterate
/-!
The walks along solutions as recursions that no number bounds: each step below hands its recursive
calls to `deeper`.
-/

namespace ClosedTypes

/-- Unrolled far enough, the recursion through `step` answers `v` at `x`, whatever stands for the
calls deeper than that. -/
def Ends {α β : Type} (step : (α → β) → α → β) (x : α) (v : β) : Prop :=
  ∃ depth, ∀ deeper : α → β, (step^[depth] deeper) x = v

def Ty.parts : Ty → List Ty
  | .const _ args => args
  | .tuple elems => elems
  | .arrow d c => [d, c]
  | _ => []

namespace Solutions

def Mentions (s : Solutions) (i j : UInt32) : Prop :=
  ∃ t, s.solution? i = some t ∧ t.mentionsMetavar j = true

def resolveStep (s : Solutions) (deeper : Ty → Ty) : Ty → Ty
  | .metavar i =>
    match s.solution? i with
    | some t => deeper t
    | none => .metavar i
  | t => t

def zonkStep (s : Solutions) (deeper : Ty → Ty) (t : Ty) : Ty :=
  match s.resolve t with
  | .const c args => .const c (args.map deeper)
  | .tuple elems => .tuple (elems.map deeper)
  | .arrow d c => .arrow (deeper d) (deeper c)
  | t => t

def occursStep (s : Solutions) (i : UInt32) (deeper : Ty → Bool) (t : Ty) : Bool :=
  match s.resolve t with
  | .metavar j => j = i
  | .const _ args => args.any deeper
  | .tuple elems => elems.any deeper
  | .arrow d c => deeper d || deeper c
  | _ => false

def unifyEach (deeper : Ty × Ty × Solutions → Bool × Solutions) :
    List Ty → List Ty → Solutions → Bool × Solutions
  | a :: as, b :: bs, s =>
    match deeper (a, b, s) with
    | (true, s) => unifyEach deeper as bs s
    | (false, s) => (false, s)
  | _, _, s => (true, s)

def unifyStep (deeper : Ty × Ty × Solutions → Bool × Solutions) :
    Ty × Ty × Solutions → Bool × Solutions
  | (a, b, s) =>
    match s.resolve a, s.resolve b with
    | .metavar i, .metavar j => if i = j then (true, s) else s.assign i (.metavar j)
    | .metavar i, b => s.assign i b
    | a, .metavar j => s.assign j a
    | .var x, .var y => (x = y, s)
    | .prim p, .prim q => (p = q, s)
    | .const c as, .const d bs =>
      if c = d ∧ as.length = bs.length then unifyEach deeper as bs s else (false, s)
    | .tuple as, .tuple bs => if as.length = bs.length then unifyEach deeper as bs s else (false, s)
    | .arrow a b, .arrow c d =>
      match deeper (a, c, s) with
      | (true, s) => deeper (b, d, s)
      | (false, s) => (false, s)
    | _, _ => (false, s)

end Solutions

end ClosedTypes
