import ClosedTypes.Session
/-!
The contexts and sessions that can come about: from the empty context by commits of blocks, whatever
fails in between.
-/

namespace ClosedTypes

namespace Context

/-- Blocks that were put together entry by entry. Entries that were refused have left no trace. -/
inductive Staged (ctx : Context) : Block → Prop where
  | nil : Staged ctx []
  | stage {block block' entry} : Staged ctx block → ctx.stage block entry = .ok block' →
    Staged ctx block'

inductive Reachable : Context → Prop where
  | empty : Reachable .empty
  | commit {ctx block} : Reachable ctx → ctx.Staged block → Reachable (ctx.commit block).2

theorem stage_eq_ok_iff {ctx : Context} {block block' : Block} {entry : Entry} :
    ctx.stage block entry = .ok block' ↔ ctx.ensureFresh block entry = .ok () ∧
    block' = block ++ [entry] := by
  unfold stage
  cases h : ctx.ensureFresh block entry with
  | error e => simp [bind, Except.bind]
  | ok _ => simp [bind, Except.bind, pure, Except.pure, eq_comm]

theorem Staged.of_stageAll {ctx : Context} {block block' : Block} {entries : List Entry}
    (h : ctx.Staged block) (hs : ctx.stageAll block entries = .ok block') : ctx.Staged block' := by
  induction entries generalizing block with
  | nil =>
    cases hs
    exact h
  | cons entry entries ih =>
    simp only [stageAll, List.foldlM_cons, bind, Except.bind] at hs
    split at hs
    · cases hs
    · rename_i staged hstaged
      exact ih (h.stage hstaged) hs

end Context

namespace Session

inductive Reachable : Session → Prop where
  | start {limits} : Reachable (.start limits)
  | declare {s s' draft} : Reachable s → s.declare draft = .ok s' → Reachable s'
  | commit {s} : Reachable s → Reachable s.commit.2
  | abandon {s} : Reachable s → Reachable s.abandon
  | load {bytes limits s} : Session.load bytes limits = .ok s → Reachable s

end Session

end ClosedTypes
