import ClosedTypes.Proofs.Archive.Loading
import ClosedTypes.Proofs.Context.Installed
/-!
A context that has grown by commits is what its archive loads as. The blocks go in again one by one,
each in the order in which the log keeps it.
-/

namespace ClosedTypes

namespace Context

variable {ctx : Context} {e : Entry}

theorem WellFormed.rigid (h : ctx.WellFormed) (he : e ∈ ctx.entries) : e.Rigid := by
  have annotations {assumptions : List (Name × Ty)} {t : Term} {expected : Ty}
      (hc : Validation.checkUnder ctx assumptions t expected = .ok ()) :
      ∀ ty ∈ t.annotations, ∀ i, ty.mentionsMetavar i = false := fun ty hty =>
    (Checker.checkWritten_eq_ok_iff.1
      ((Checker.inScope_of_checkUnder h.shaped hc).annotations ty hty)).2
  cases e with
  | constructor d =>
    obtain ⟨params, hd⟩ := h.constructors d he
    exact (Checker.checkWritten_eq_ok_iff.1 hd.written).2
  | eliminator d =>
    obtain ⟨params, hd⟩ := h.eliminators d he
    exact (Checker.checkWritten_eq_ok_iff.1 hd.written).2
  | equation d =>
    obtain ⟨e, c, hd⟩ := h.equations d he
    exact annotations hd.rhs
  | implementation d =>
    obtain ⟨owner, r, t, hd⟩ := h.implementations d he
    exact annotations hd.body
  | type d => trivial
  | representation d => trivial

theorem Grown.canonical (h : ctx.Grown) (he : e ∈ ctx.entries) : e.Canonical := by
  induction h with
  | empty => cases he
  | commit _ _ hcanonical hnil ih =>
    rcases (mem_entries_commit hnil).1 he with he | he
    · exact ih he
    · exact hcanonical e he

theorem mem_entries_of_mem_blockEntries {block : Block} (hb : block ∈ ctx.blockEntries)
    (he : e ∈ block) : e ∈ ctx.entries := by
  obtain ⟨s, -, rfl⟩ := List.mem_map.1 hb
  exact List.mem_of_mem_take (List.mem_of_mem_drop he)

end Context

namespace Archive

variable {ctx ctx' mid : Context} {block : Block} {blocks : List Block}

def Replays : Context → List Block → Context → Prop
  | ctx, [], ctx' => ctx = ctx'
  | ctx, block :: blocks, ctx' =>
    ∃ mid, (∀ i, replayBlock ctx i block = .ok mid) ∧ Replays mid blocks ctx'

theorem Replays.snoc (h : Replays ctx blocks mid) (hb : ∀ i, replayBlock mid i block = .ok ctx') :
    Replays ctx (blocks ++ [block]) ctx' := by
  induction blocks generalizing ctx with
  | nil =>
    obtain rfl : ctx = mid := h
    exact ⟨ctx', hb, rfl⟩
  | cons b blocks ih =>
    obtain ⟨mid', hb', h⟩ := h
    exact ⟨mid', hb', ih h⟩

theorem replayBlock_installed (hs : ctx.Staged block) (he : ctx.errors block = []) (i : Nat) :
    replayBlock ctx i block.installed = .ok (ctx.commit block).2 := by
  unfold replayBlock
  simp only [hs.stageAll_installed, Context.commit_installed he, Context.commit_of_errors_eq_nil he]

theorem replays_of_grown (h : ctx.Grown) : Replays .empty ctx.blockEntries ctx := by
  induction h with
  | empty => rfl
  | @commit ctx block hgrown hs _ he ih =>
    rw [Context.blockEntries_commit hgrown.reachable.wellFormed he]
    split
    · rename_i hnil
      rw [List.append_nil]
      rw [hnil, Context.commit_nil]
      exact ih
    · exact ih.snoc (replayBlock_installed hs he)

theorem length_encodeBlock_pos : 0 < (encodeBlock block).length := by
  unfold encodeBlock
  rw [List.length_append]
  exact Nat.lt_of_lt_of_le length_header_pos (Nat.le_add_right _ _)

theorem reads_readBlock (hrigid : ∀ e ∈ block, e.Rigid) (hcanonical : ∀ e ∈ block, e.Canonical)
    (hfit : (encodeBlock block).length < UInt64.size) :
    Reads readBlock (encodeBlock block) block := by
  unfold encodeBlock at hfit ⊢
  rw [List.length_append] at hfit
  have hcount : block.length ≤ (block.flatMap encodeEntry).length :=
    count_le_length_flatMap fun _ _ => length_encodeEntry_pos
  refine reads_readCount.bind ?_
  rw [toNat_lengthOf (by omega)]
  refine reads_readMany fun e he => reads_readEntry (entryFits_of_length ?_) (hrigid e he)
    (hcanonical e he)
  have hentry : (encodeEntry e).length ≤ (block.flatMap encodeEntry).length := length_le_flatMap he
  omega

theorem replay_append (h : Replays ctx blocks ctx')
    (hread : ∀ b ∈ blocks, Reads readBlock (encodeBlock b) b) (i : Nat) (more : List UInt8) :
    replay i blocks.length ctx (blocks.flatMap encodeBlock ++ more) =
      replay (i + blocks.length) 0 ctx' more := by
  induction blocks generalizing ctx i with
  | nil =>
    obtain rfl : ctx = ctx' := h
    rfl
  | cons b blocks ih =>
    obtain ⟨mid, hb, h⟩ := h
    rw [List.forall_mem_cons] at hread
    have hblock : readBlock.read (encodeBlock b ++ (blocks.flatMap encodeBlock ++ more)) =
        (.ok b, blocks.flatMap encodeBlock ++ more) :=
      hread.1 _
    rw [List.length_cons, List.flatMap_cons, List.append_assoc]
    conv_lhs => rw [replay]
    simp only [hblock, hb i]
    rw [ih h hread.2 (i + 1), Nat.add_right_comm, Nat.add_assoc]

structure Legible (ctx : Context) : Prop where
  count : (lengthOf ctx.blockEntries).toNat = ctx.blockEntries.length
  blocks : ∀ b ∈ ctx.blockEntries, Reads readBlock (encodeBlock b) b

theorem legible_of_grown (h : ctx.Grown) (hfit : (save ctx).length < UInt64.size) :
    Legible ctx := by
  unfold save at hfit
  rw [List.cons_append, List.length_cons, List.length_append] at hfit
  have hcount : ctx.blockEntries.length ≤ (ctx.blockEntries.flatMap encodeBlock).length :=
    count_le_length_flatMap fun _ _ => length_encodeBlock_pos
  refine ⟨toNat_lengthOf (by omega), fun b hb => ?_⟩
  have hblock : (encodeBlock b).length ≤ (ctx.blockEntries.flatMap encodeBlock).length :=
    length_le_flatMap hb
  have hentries {e : Entry} (he : e ∈ b) : e ∈ ctx.entries :=
    Context.mem_entries_of_mem_blockEntries hb he
  exact reads_readBlock (fun e he => h.reachable.wellFormed.rigid (hentries he))
    (fun e he => h.canonical (hentries he)) (by omega)

theorem load_save_append (h : ctx.Grown) (hfit : (save ctx).length < UInt64.size)
    (more : List UInt8) :
    load (save ctx ++ more) = replay ctx.blockEntries.length 0 ctx more := by
  obtain ⟨hcount, hblocks⟩ := legible_of_grown h hfit
  have hsize : readCount.read
      (count (lengthOf ctx.blockEntries) ++ (ctx.blockEntries.flatMap encodeBlock ++ more)) =
      (.ok (lengthOf ctx.blockEntries), ctx.blockEntries.flatMap encodeBlock ++ more) :=
        reads_readCount _
  rw [save, List.cons_append, List.cons_append, List.append_assoc, load, if_pos rfl]
  simp only [hsize]
  rw [hcount, replay_append (replays_of_grown h) hblocks, Nat.zero_add]

theorem load_save (h : ctx.Grown) (hfit : (save ctx).length < UInt64.size) :
    load (save ctx) = .ok ctx := by
  rw [← List.append_nil (save ctx), load_save_append h hfit]
  rfl

end Archive

end ClosedTypes
