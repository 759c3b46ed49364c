import ClosedTypes.Archive.Log
import ClosedTypes.Proofs.Archive.Codec
import ClosedTypes.Proofs.Context.WellFormed
/-!
Contexts that grow by commits that go in, of entries that can be read back. Whatever bytes a context
is loaded from, it has grown like this.
-/

namespace ClosedTypes

namespace Context

inductive Grown : Context → Prop where
  | empty : Grown .empty
  | commit {ctx block} : Grown ctx → ctx.Staged block → (∀ e ∈ block, e.Canonical) →
    ctx.errors block = [] →
    Grown (ctx.commit block).2

variable {ctx : Context} {block : Block}

theorem Grown.reachable (h : ctx.Grown) : ctx.Reachable := by
  induction h with
  | empty => exact .empty
  | commit _ hs _ _ ih => exact .commit ih hs

theorem Grown.commit_any (h : ctx.Grown) (hs : ctx.Staged block)
    (hcanonical : ∀ e ∈ block, e.Canonical) :
    (ctx.commit block).2.Grown := by
  by_cases he : ctx.errors block = []
  · exact h.commit hs hcanonical he
  · rw [h.reachable.wellFormed.commit_eq_self hs he]
    exact h

theorem stageAll_eq_append {staged block : Block} {entries : List Entry}
    (h : ctx.stageAll staged entries = .ok block) :
    block = staged ++ entries := by
  induction entries generalizing staged with
  | nil =>
    cases h
    exact (List.append_nil _).symm
  | cons e entries ih =>
    rw [stageAll, List.foldlM_cons, bind_eq_ok_iff] at h
    obtain ⟨staged', hstage, hrest⟩ := h
    obtain ⟨-, rfl⟩ := stage_eq_ok_iff.1 hstage
    rw [ih hrest, List.append_assoc, List.singleton_append]

end Context

namespace Archive

variable {ctx ctx' : Context} {bytes rest : List UInt8}

theorem canonical_of_readEntry {e : Entry} (h : Answers readEntry bytes e rest) : e.Canonical := by
  unfold readEntry at h
  obtain ⟨⟨kind, size⟩, bytes₁, -, h⟩ := answers_bind.1 h
  dsimp only at h
  split at h
  · obtain ⟨name, bytes₂, -, h⟩ := answers_bind.1 h
    obtain ⟨rfl, -⟩ := answers_pure.1 h
    rfl
  · obtain ⟨name, bytes₂, -, h⟩ := answers_bind.1 h
    obtain ⟨signature, bytes₃, -, h⟩ := answers_bind.1 h
    split at h
    · rename_i d hd
      obtain ⟨rfl, -⟩ := answers_pure.1 h
      have hentry : (Draft.constructor name signature).entry = .ok (.constructor d) :=
        map_eq_ok_iff.2 ⟨d, hd, rfl⟩
      exact Entry.canonical_of_entry hentry
    · exact absurd h not_answers_throw
  · obtain ⟨name, bytes₂, -, h⟩ := answers_bind.1 h
    obtain ⟨signature, bytes₃, -, h⟩ := answers_bind.1 h
    split at h
    · rename_i d hd
      obtain ⟨rfl, -⟩ := answers_pure.1 h
      have hentry : (Draft.eliminator name signature).entry = .ok (.eliminator d) :=
        map_eq_ok_iff.2 ⟨d, hd, rfl⟩
      exact Entry.canonical_of_entry hentry
    · exact absurd h not_answers_throw
  · obtain ⟨eliminator, bytes₂, -, h⟩ := answers_bind.1 h
    obtain ⟨constructor, bytes₃, -, h⟩ := answers_bind.1 h
    obtain ⟨binders, bytes₄, -, h⟩ := answers_bind.1 h
    obtain ⟨rhs, bytes₅, -, h⟩ := answers_bind.1 h
    obtain ⟨rfl, -⟩ := answers_pure.1 h
    rfl
  · obtain ⟨typeName, bytes₂, -, h⟩ := answers_bind.1 h
    obtain ⟨backing, bytes₃, -, h⟩ := answers_bind.1 h
    obtain ⟨rfl, -⟩ := answers_pure.1 h
    rfl
  · obtain ⟨op, bytes₂, -, h⟩ := answers_bind.1 h
    obtain ⟨body, bytes₃, -, h⟩ := answers_bind.1 h
    obtain ⟨rfl, -⟩ := answers_pure.1 h
    rfl
  · exact absurd h not_answers_throw

theorem forall_of_readMany {α : Type} {item : Reader α} {p : α → Prop}
    (hitem : ∀ {bytes a rest}, Answers item bytes a rest → p a) {n : Nat} {xs : List α}
    (h : Answers (readMany item n) bytes xs rest) : ∀ x ∈ xs, p x := by
  induction n generalizing bytes xs rest with
  | zero =>
    obtain ⟨rfl, -⟩ := answers_pure.1 h
    nofun
  | succ n ih =>
    obtain ⟨x, bytes₁, hx, h⟩ := answers_bind.1 h
    obtain ⟨xs', bytes₂, hxs, h⟩ := answers_bind.1 h
    obtain ⟨rfl, -⟩ := answers_pure.1 h
    exact List.forall_mem_cons.2 ⟨hitem hx, ih hxs⟩

theorem grown_of_replayBlock {i : Nat} {entries : List Entry} (h : ctx.Grown)
    (hcanonical : ∀ e ∈ entries, e.Canonical)
    (hr : replayBlock ctx i entries = .ok ctx') : ctx'.Grown := by
  unfold replayBlock at hr
  split at hr
  · cases hr
  · rename_i block hblock
    -- staging takes the entries as they are, so the block that is committed is the one that was
    -- read
    obtain rfl : block = entries := Context.stageAll_eq_append hblock
    split at hr
    · rename_i heq
      cases hr
      have hcommit : (ctx.commit block).2 = ctx' := by rw [heq]
      exact hcommit ▸ h.commit_any (.of_stageAll .nil hblock) hcanonical
    · cases hr

theorem grown_of_replay {i n : Nat} (h : ctx.Grown) (hr : replay i n ctx bytes = .ok ctx') :
    ctx'.Grown := by
  induction n generalizing ctx i bytes with
  | zero =>
    cases bytes with
    | nil =>
      cases hr
      exact h
    | cons b bytes => cases hr
  | succ n ih =>
    rw [replay] at hr
    split at hr
    · cases hr
    · rename_i entries rest hread
      have hanswers : Answers readBlock bytes entries rest := hread
      obtain ⟨size, bytes₁, -, hentries⟩ := answers_bind.1 hanswers
      split at hr
      · cases hr
      · rename_i hblock
        exact ih
          (grown_of_replayBlock h (forall_of_readMany canonical_of_readEntry hentries) hblock) hr

theorem grown_of_load (h : load bytes = .ok ctx) : ctx.Grown := by
  cases bytes with
  | nil => cases h
  | cons v bytes =>
    rw [load] at h
    split at h
    · split at h
      · cases h
      · exact grown_of_replay .empty h
    · cases h

end Archive

end ClosedTypes
