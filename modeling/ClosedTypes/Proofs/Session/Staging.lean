import ClosedTypes.Proofs.Session
/-!
What is pending in a session is ready to be committed. An entry is asked for freshness when it is
declared, and relies on the answer when the block is committed; in between only other declarations
come in, since a commit leaves nothing pending.
-/

namespace ClosedTypes

namespace Context.Staged

variable {ctx : Context} {block : Block}

theorem holds_eq_false (h : ctx.Staged block) :
    ∀ e ∈ block, ∀ claim, e.claim? = some claim → ctx.holds claim = false := by
  intro e he claim hclaim
  rw [holds_eq, h.fresh.1 e he claim hclaim]
  rfl

theorem apart (h : ctx.Staged block) :
    block.Pairwise fun a b => ∀ claim, a.claim? = some claim → b.claim? ≠ some claim :=
  h.fresh.2.imp fun hab claim ha hb => hab claim hb ha

theorem stageAll_eq_self (h : ctx.Staged block) : ctx.stageAll [] block = .ok block :=
  stageAll_eq_ok h.fresh.1 h.fresh.2

end Context.Staged

namespace Session

variable {s s' : Session}

def declaring (draft : Draft) : ExceptT Error (StateM Session) Unit := do
  match draft.entry with
  | .error m => throw (.malformed m)
  | .ok entry =>
    let s ← get
    match s.context.ensureFresh s.pending entry with
    | .error e => throw (.name e)
    | .ok _ => modify fun s => { s with pending := s.pending ++ [entry] }

theorem run_declaring (s : Session) (draft : Draft) :
    (declaring draft).run s = match s.declare draft with
      | .ok s' => (.ok (), s')
      | .error e => (.error e, s) := by
  unfold declaring declare stage Context.stage
  cases draft.entry with
  | error m => rfl
  | ok entry =>
    change (match s.context.ensureFresh s.pending entry with
      | .error e => throw (.name e)
      | .ok _ =>
        modify fun s => { s with pending := s.pending ++ [entry] } :
          ExceptT Error (StateM Session) Unit).run s = _
    cases h : s.context.ensureFresh s.pending entry with
    | error e => simp only [h]; rfl
    | ok _ => simp only [h]; rfl

theorem staged_of_declare {draft : Draft} (h : s.context.Staged s.pending)
    (hd : s.declare draft = .ok s') :
    s'.context.Staged s'.pending := by
  unfold declare stage at hd
  split at hd
  · split at hd
    · rename_i hstage
      cases hd
      exact h.stage hstage
    · cases hd
  · cases hd

theorem pending_commit (s : Session) : s.commit.2.pending = [] := by
  unfold commit
  split <;> rfl

theorem Reachable.staged (h : s.Reachable) : s.context.Staged s.pending := by
  induction h with
  | start => exact .nil
  | declare _ hd ih => exact staged_of_declare ih hd
  | commit _ _ =>
    rw [pending_commit]
    exact .nil
  | abandon _ _ => exact .nil
  | load hload =>
    unfold Session.load at hload
    split at hload
    · cases hload
      exact .nil
    · cases hload

theorem commit_of_staged (h : s.context.Staged s.pending) :
    s.commit = ((s.context.commit s.pending).1,
      { s with context := (s.context.commit s.pending).2, pending := [] }) := by
  unfold commit
  rw [h.stageAll_eq_self]

/-- In every session the pending entries are fresh, against the context and against each other,
so staging them again never fails. A commit therefore answers what staging and committing them as
a block answers, and leaves the context that this leaves and nothing pending; one that fails
leaves the context that was there. A declaration that fails leaves the whole session as it was. -/
theorem commit_eq_commit_block (h : s.Reachable) :
    (∀ e ∈ s.pending, ∀ claim, e.claim? = some claim → s.context.holds claim = false) ∧
      (s.pending.Pairwise fun a b => ∀ claim, a.claim? = some claim → b.claim? ≠ some claim) ∧
      s.context.stageAll [] s.pending = .ok s.pending ∧
      s.commit = ((s.context.commit s.pending).1,
        { s with context := (s.context.commit s.pending).2, pending := [] }) ∧
      (∀ es, s.commit.1 = .error es → s.commit.2.context = s.context ∧ s.commit.2.pending = []) ∧
      ∀ draft e, ((declaring draft).run s).1 = .error e → s.declare draft = .error e ∧
          ((declaring draft).run s).2 = s := by
  have hs := h.staged
  have hcommit := commit_of_staged hs
  refine ⟨hs.holds_eq_false, hs.apart, hs.stageAll_eq_self, hcommit, fun es hes =>
    ⟨?_, pending_commit s⟩, fun draft e he => ?_⟩
  · rw [hcommit] at hes ⊢
    obtain ⟨rfl, hne⟩ := Context.commit_eq_error_iff.1 hes
    exact h.recorded.context.reachable.wellFormed.commit_eq_self hs hne
  · rw [run_declaring] at he ⊢
    split at he
    · cases he
    · rename_i hd
      cases he
      exact ⟨hd, rfl⟩

theorem booleans_commit_block :
    Context.empty.stageAll [] booleans.pending = .ok booleans.pending ∧
      booleans.commit.2.context = (Context.empty.commit booleans.pending).2 ∧
      booleans.commit.2.pending = [] ∧
      ((declaring (.type "True" 0)).run booleans).2 = booleans := by
  obtain ⟨-, -, hstage, hcommit, -, hdeclare⟩ := commit_eq_commit_block booleans_reachable
  refine ⟨hstage, ?_, ?_, (hdeclare (.type "True" 0) (.name (.duplicate "True")) rfl).2⟩
  · rw [hcommit]
    rfl
  · rw [hcommit]

end Session

end ClosedTypes
