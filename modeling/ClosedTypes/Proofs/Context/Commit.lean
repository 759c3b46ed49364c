import ClosedTypes.Proofs.Context.Filed
import ClosedTypes.Session.Reachable
/-!
What staging lets into a block, and what a commit does with it: its named entries open the context
for validation, then the keyed entries follow them into the log, or the context is taken back.
-/

namespace ClosedTypes

namespace Block

/-- The entries that claim a name. They go into the log first. -/
def named (block : Block) : List Entry := block.filter (·.name?.isSome)

def keyed (block : Block) : List Entry := block.filter fun e => !e.name?.isSome

theorem mem_named {block : Block} {e : Entry} :
    e ∈ block.named ↔ e ∈ block ∧ ∃ x, e.name? = some x := by
  simp [named, Option.isSome_iff_exists]

theorem mem_keyed {block : Block} {e : Entry} :
    e ∈ block.keyed ↔ e ∈ block ∧ e.name? = none := by simp [keyed]

theorem mem_or_mem {block : Block} {e : Entry} : e ∈ block.named ∨ e ∈ block.keyed ↔ e ∈ block := by
  rw [mem_named, mem_keyed, ← and_or_left, ← Option.isSome_iff_exists]
  cases e.name? <;> simp

end Block

namespace Context

theorem ensureFresh_eq_ok_iff {ctx : Context} {staged : List Entry} {e : Entry} :
    ctx.ensureFresh staged e = .ok () ↔
      ∀ c, e.claim? = some c → ctx.index? c.key = none ∧ ∀ s ∈ staged, s.claim? ≠ some c := by
  unfold ensureFresh
  cases hc : e.claim? with
  | none => simp
  | some c =>
    simp only [holds_eq, Option.some.injEq, forall_eq']
    by_cases h : ctx.index? c.key = none
    · simp [h]
    · simp [h, Option.isSome_iff_ne_none.2 h]

theorem Staged.fresh {ctx : Context} {block : Block} (h : ctx.Staged block) :
    (∀ e ∈ block, ∀ c, e.claim? = some c → ctx.index? c.key = none) ∧
      block.Pairwise fun a b => ∀ c, b.claim? = some c → a.claim? ≠ some c := by
  induction h with
  | nil => simp
  | stage _ hs ih =>
    obtain ⟨hf, rfl⟩ := stage_eq_ok_iff.1 hs
    rw [ensureFresh_eq_ok_iff] at hf
    refine ⟨fun e he => ?_, ?_⟩
    · rcases List.mem_append.1 he with he | he
      · exact ih.1 e he
      · rw [List.mem_singleton.1 he]
        exact fun c hc => (hf c hc).1
    · rw [List.pairwise_append]
      refine ⟨ih.2, List.pairwise_singleton _ _, fun a ha b hb c hc => ?_⟩
      rw [List.mem_singleton.1 hb] at hc
      exact (hf c hc).2 a ha

theorem Staged.pairwise_named {ctx : Context} {block : Block} (h : ctx.Staged block) :
    block.named.Pairwise (·.key ≠ ·.key) := by
  refine (h.fresh.2.filter _).imp_of_mem fun {a b} ha _ hab hkey => ?_
  obtain ⟨_, x, hx⟩ := Block.mem_named.1 ha
  have hb : b.claim? = some (.name x) := by
    rw [Entry.claim?_eq_some_iff, ← hkey, Entry.name?_eq_some_iff.1 hx]
    rfl
  refine hab _ hb ?_
  rw [Entry.claim?_eq_some_iff, Entry.name?_eq_some_iff.1 hx]
  rfl

theorem Staged.fresh_named {ctx : Context} {block : Block} (h : ctx.Staged block) {e : Entry}
    (he : e ∈ block.named) :
    ctx.index? e.key = none := by
  obtain ⟨hmem, x, hx⟩ := Block.mem_named.1 he
  rw [Entry.name?_eq_some_iff] at hx
  rw [hx]
  exact h.fresh.1 e hmem (.name x) (Entry.claim?_eq_some_iff.2 hx)

def opened (ctx : Context) (block : Block) : Context := ctx.installAll block.named

def extended (ctx : Context) (block : Block) : Context := (ctx.opened block).installAll block.keyed

def errors (ctx : Context) (block : Block) : List Error :=
  Validation.errors (ctx.opened block) block ctx.size

theorem commit_of_errors_eq_nil {ctx : Context} {block : Block} (h : ctx.errors block = []) :
    ctx.commit block = (.ok (), (ctx.extended block).sealBlock ctx.size) := by
  have hp : block.partition (·.name?.isSome) = (block.named, block.keyed) :=
    List.partition_eq_filter_filter ..
  unfold commit
  simp only [hp]
  rw [show Validation.errors (ctx.installAll block.named) block ctx.size = [] from h]
  rfl

theorem snd_commit {ctx : Context} {block : Block} (h : ctx.errors block = []) :
    (ctx.commit block).2 = (ctx.extended block).sealBlock ctx.size := by
  rw [commit_of_errors_eq_nil h]

theorem commit_of_errors_ne_nil {ctx : Context} {block : Block} (h : ctx.errors block ≠ []) :
    ctx.commit block = (.error (ctx.errors block), (ctx.opened block).rollback ctx.size) := by
  have hp : block.partition (·.name?.isSome) = (block.named, block.keyed) :=
    List.partition_eq_filter_filter ..
  unfold commit
  simp only [hp]
  cases he : ctx.errors block with
  | nil => exact absurd he h
  | cons e es =>
    rw [show Validation.errors (ctx.installAll block.named) block ctx.size = e :: es from he]
    rfl

theorem commit_eq_error_iff {ctx : Context} {block : Block} {es : List Error} :
    (ctx.commit block).1 = .error es ↔ ctx.errors block = es ∧ es ≠ [] := by
  by_cases h : ctx.errors block = []
  · rw [commit_of_errors_eq_nil h, h]
    simp +contextual [eq_comm]
  · rw [commit_of_errors_ne_nil h]
    refine ⟨fun he => ?_, fun he => congrArg _ he.1⟩
    cases he
    exact ⟨rfl, h⟩

theorem entries_extended (ctx : Context) (block : Block) :
    (ctx.extended block).entries = ctx.entries ++ (block.named ++ block.keyed) := by
  simp [extended, opened]

end Context

end ClosedTypes
