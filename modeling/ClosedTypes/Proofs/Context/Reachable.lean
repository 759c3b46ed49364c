import ClosedTypes.Proofs.Archive.Loading
import ClosedTypes.Proofs.Context.Closed
/-!
Every context there can be: whichever way it came about, its log is well-formed and its types are
closed, and a commit that fails leaves no trace in it.
-/

namespace ClosedTypes

namespace Context

variable {ctx : Context} {block : Block}

/-- Whatever was staged, dropped or refused on the way, and whatever bytes a context was loaded
from. -/
theorem wellFormed_and_closed (h : ctx.Reachable ∨ ∃ bytes, Archive.load bytes = .ok ctx) :
    ctx.WellFormed ∧ ctx.Closed := by
  have hr : ctx.Reachable := h.elim id fun ⟨_, hload⟩ => (Archive.grown_of_load hload).reachable
  exact ⟨hr.wellFormed, hr.closed⟩

def booleans : Block := [
  .type ⟨"Bool", 0⟩,
  .constructor ⟨"True", .const "Bool" [], "Bool"⟩,
  .constructor ⟨"False", .const "Bool" [], "Bool"⟩,
  .eliminator ⟨"Not", .arrow (.const "Bool" []) (.const "Bool" []), "Bool", none⟩,
  .equation ⟨"Not", "True", [], .ctor "False" []⟩,
  .equation ⟨"Not", "False", [], .ctor "True" []⟩]

theorem booleans_staged : empty.Staged booleans :=
  .of_stageAll .nil (show empty.stageAll [] booleans = .ok booleans from rfl)

theorem booleans_wellFormed_and_closed :
    (empty.commit booleans).2.size = 6 ∧ (empty.commit booleans).2.WellFormed ∧
    (empty.commit booleans).2.Closed :=
  ⟨rfl, wellFormed_and_closed (.inl (.commit .empty booleans_staged))⟩

/-- After a failed commit everything is as it was, and goes on as if the attempt had not been
made. -/
theorem commit_of_error_eq_self {es : List Error} (h : ctx.Reachable) (hs : ctx.Staged block)
    (he : (ctx.commit block).1 = .error es) :
    (ctx.commit block).2 = ctx ∧
      ∀ later, (ctx.commit block).2.stageAll [] later = ctx.stageAll [] later ∧
        (ctx.commit block).2.commit later = ctx.commit later := by
  obtain ⟨rfl, hne⟩ := commit_eq_error_iff.1 he
  have hsame : (ctx.commit block).2 = ctx := h.wellFormed.commit_eq_self hs hne
  exact ⟨hsame, fun later => by rw [hsame]; exact ⟨rfl, rfl⟩⟩

def unfinished : Block := [
  .type ⟨"Nat", 0⟩,
  .constructor ⟨"Zero", .const "Nat" [], "Nat"⟩,
  .eliminator ⟨"IsZero", .arrow (.const "Nat" []) (.const "Bool" []), "Nat", none⟩]

theorem unfinished_staged : (empty.commit booleans).2.Staged unfinished :=
  .of_stageAll .nil (show (empty.commit booleans).2.stageAll [] unfinished =
    .ok unfinished from rfl)

theorem unfinished_rejected :
    ((empty.commit booleans).2.commit unfinished).1 = .error [.nonExhaustive "IsZero" ["Zero"]] :=
  rfl

theorem unfinished_undone :
    ((empty.commit booleans).2.commit unfinished).2 = (empty.commit booleans).2 ∧
      ∀ later, ((empty.commit booleans).2.commit unfinished).2.stageAll [] later =
        (empty.commit booleans).2.stageAll [] later ∧
        ((empty.commit booleans).2.commit unfinished).2.commit later =
          (empty.commit booleans).2.commit later :=
  commit_of_error_eq_self (.commit .empty booleans_staged) unfinished_staged unfinished_rejected

end Context

end ClosedTypes

