import ClosedTypes.Proofs.Archive.Locality
import ClosedTypes.Proofs.Context.Reachable
/-!
Sessions and their archives. Whatever a session has been through, the context it has committed is
the one that its archive loads as.
-/

namespace ClosedTypes.Session

variable {s s' : Session}

/-- The context has grown by commits that went in, and the pending entries come from drafts. -/
structure Recorded (s : Session) : Prop where
  context : s.context.Grown
  pending : ∀ e ∈ s.pending, e.Canonical

theorem Recorded.declare {draft : Draft} (h : s.Recorded) (hd : s.declare draft = .ok s') :
    s'.Recorded := by
  unfold Session.declare at hd
  split at hd
  · rename_i entry hentry
    unfold Session.stage at hd
    split at hd
    · rename_i pending hstage
      cases hd
      obtain ⟨-, rfl⟩ := Context.stage_eq_ok_iff.1 hstage
      refine ⟨h.context, fun e he => ?_⟩
      rcases List.mem_append.1 he with he | he
      · exact h.pending e he
      · rw [List.mem_singleton.1 he]
        exact Entry.canonical_of_entry hentry
    · cases hd
  · cases hd

theorem Recorded.commit (h : s.Recorded) : s.commit.2.Recorded := by
  unfold Session.commit
  split
  · exact ⟨h.context, nofun⟩
  · rename_i block hblock
    obtain rfl : block = s.pending := Context.stageAll_eq_append hblock
    exact ⟨h.context.commit_any (.of_stageAll .nil hblock) h.pending, nofun⟩

theorem Recorded.load {bytes : List UInt8} {limits : Limits}
    (h : Session.load bytes limits = .ok s) : s.Recorded := by
  unfold Session.load at h
  split at h
  · rename_i hload
    cases h
    exact ⟨Archive.grown_of_load hload, nofun⟩
  · cases h

theorem Reachable.recorded (h : s.Reachable) : s.Recorded := by
  induction h with
  | start => exact ⟨.empty, nofun⟩
  | declare _ hd ih => exact ih.declare hd
  | commit _ ih => exact ih.commit
  | abandon _ ih => exact ⟨ih.context, nofun⟩
  | load hload => exact .load hload

/-- Loading what a session saved gives its committed context, with nothing pending, and saving
that gives the same bytes. No vector of bytes is longer than a machine word can say. -/
theorem load_of_save (h : s.Reachable) (hfit : s.save.length < UInt64.size) (limits : Limits) :
    ∃ s', Session.load s.save limits = .ok s' ∧ s'.context = s.context ∧ s'.pending = [] ∧
    s'.limits = limits ∧ s'.save = s.save := by
  have hload : Archive.load s.save = .ok s.context := Archive.load_save h.recorded.context hfit
  refine ⟨⟨s.context, [], limits⟩, ?_, rfl, rfl, rfl, rfl⟩
  unfold Session.load
  rw [hload]

def booleans : Session := { start { } with pending := Context.booleans }

theorem booleans_reachable : booleans.Reachable := by
  have declareAll (drafts : List Draft) {s s' : Session} (h : s.Reachable)
      (hd : drafts.foldlM Session.declare s = .ok s') :
      s'.Reachable := by
    induction drafts generalizing s with
    | nil =>
      cases hd
      exact h
    | cons draft drafts ih =>
      rw [List.foldlM_cons, bind_eq_ok_iff] at hd
      obtain ⟨s₁, hdeclare, hd⟩ := hd
      exact ih (h.declare hdeclare) hd
  have hstart : (start { }).Reachable := .start
  exact declareAll (Context.booleans.map Entry.draft) hstart rfl

theorem booleans_restored :
    booleans.commit.2.context.size = 6 ∧
      ∃ s', Session.load booleans.commit.2.save ⟨1, 1⟩ = .ok s' ∧
      s'.context = booleans.commit.2.context ∧ s'.pending = [] ∧
        s'.limits = ⟨1, 1⟩ ∧ s'.save = booleans.commit.2.save :=
  ⟨rfl, load_of_save (.commit booleans_reachable) (by decide +kernel) ⟨1, 1⟩⟩

/-- An archive that has lost bytes at its end cannot be decoded, and one that has gained some is
refused for these. In no case is there an archive of something else. -/
theorem load_damaged (h : s.Reachable) (hfit : s.save.length < UInt64.size) (limits : Limits) :
    (∀ front, front <+: s.save → front ≠ s.save →
      front = [] ∧ Session.load front limits = .error .empty ∨
      ∃ e, Session.load front limits = .error (.unreadable e)) ∧
    ∀ more, more ≠ [] → Session.load (s.save ++ more) limits = .error (.trailing more.length) := by
  have hgrown := h.recorded.context
  unfold Session.load
  refine ⟨fun front hprefix hne => ?_, fun more hmore => ?_⟩
  · obtain ⟨back, hcut⟩ := hprefix
    have hback : back ≠ [] := fun hnil => hne (by rw [← hcut, hnil, List.append_nil])
    by_cases hfront : front = []
    · subst hfront
      exact .inl ⟨rfl, rfl⟩
    · obtain ⟨e, he⟩ := Archive.load_cut hgrown hfit hcut.symm hback hfront
      exact .inr ⟨e, by rw [he]⟩
  · have hload : Archive.load (s.save ++ more) = .error (.trailing more.length) := by
      rw [Session.save, Archive.load_save_append hgrown hfit]
      obtain ⟨byte, more, rfl⟩ := List.exists_cons_of_ne_nil hmore
      rfl
    rw [hload]

theorem booleans_damaged :
    (∃ e, Session.load booleans.commit.2.save.dropLast ⟨1, 1⟩ = .error (.unreadable e)) ∧
      Session.load (booleans.commit.2.save ++ [0]) ⟨1, 1⟩ = .error (.trailing 1) := by
  obtain ⟨hcut, hpadded⟩ := load_damaged (.commit booleans_reachable) (by decide +kernel) ⟨1, 1⟩
  have hlength : booleans.commit.2.save.length ≠ booleans.commit.2.save.dropLast.length := by
    decide +kernel
  refine ⟨?_, hpadded [0] (by simp)⟩
  rcases hcut _ (List.dropLast_prefix _) fun heq => hlength (congrArg List.length heq.symm)
    with ⟨hnil, -⟩ | h
  · have hne : booleans.commit.2.save.dropLast.length ≠ 0 := by decide +kernel
    exact absurd (congrArg List.length hnil) hne
  · exact h

end ClosedTypes.Session
