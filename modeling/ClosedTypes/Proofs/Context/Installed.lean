import ClosedTypes.Proofs.Context.Closed
/-!
A block in the order in which the log keeps it. Staged and committed in that order, it goes in just
the same.
-/

namespace ClosedTypes

namespace Block

variable {block : Block} {e : Entry}

def installed (block : Block) : Block := block.named ++ block.keyed

theorem mem_installed :
    e ∈ block.installed ↔ e ∈ block := by rw [installed, List.mem_append, mem_or_mem]

@[simp] theorem named_installed (block : Block) : block.installed.named = block.named := by
  simp [installed, named, keyed, ← Option.ne_none_iff_isSome]

@[simp] theorem keyed_installed (block : Block) : block.installed.keyed = block.keyed := by
  simp [installed, named, keyed]

theorem countP_installed (p : Entry → Bool) (block : Block) :
    block.installed.countP p = block.countP p := by
  rw [installed, List.countP_append, List.countP_eq_countP_filter_add block p (·.name?.isSome)]
  rfl

theorem findSome?_installed {α : Type} {f : Entry → Option α}
    (hf : ∀ e x, e.name? = some x → f e = none) (block : Block) :
    block.installed.findSome? f = block.findSome? f := by
  have hnamed : block.named.findSome? f = none := by
    rw [List.findSome?_eq_none_iff]
    intro e he
    obtain ⟨-, x, hx⟩ := mem_named.1 he
    exact hf e x hx
  rw [installed, List.findSome?_append, hnamed, Option.none_or, keyed]
  clear hnamed
  induction block with
  | nil => rfl
  | cons e block ih =>
    cases hname : e.name? with
    | none =>
      rw [List.filter_cons_of_pos (by simp [hname]), List.findSome?_cons, List.findSome?_cons, ih]
    | some x =>
      rw [List.filter_cons_of_neg (by simp [hname]), List.findSome?_cons, hf e x hname, ih]

end Block

namespace Validation

variable {ctx : Context} {block : Block} {mark : Nat} {e : Entry}

theorem backing?_installed (ctx : Context) (block : Block) (typeName : Name) :
    backing? ctx block.installed typeName = backing? ctx block typeName := by
  unfold backing?
  rw [Block.findSome?_installed]
  intro e x hx
  cases e with
  | representation d => cases hx
  | _ => rfl

theorem validateEntry_installed :
    validateEntry ctx block.installed mark e = validateEntry ctx block mark e := by
  cases e with
  | implementation d =>
    show validateImplementation ctx block.installed d = validateImplementation ctx block d
    unfold validateImplementation
    simp only [backing?_installed]
  | _ => rfl

theorem errors_installed : errors ctx block.installed mark = [] ↔ errors ctx block mark = [] := by
  have hcount (e c : Name) : equationCount block.installed e c = equationCount block e c :=
    Block.countP_installed _ block
  simp only [errors_eq_nil_iff, Block.mem_installed, validateEntry_installed, hcount]

end Validation

namespace Context

variable {ctx : Context} {block staged : Block}

theorem opened_installed (ctx : Context) (block : Block) :
    ctx.opened block.installed = ctx.opened block := by
  unfold opened
  rw [Block.named_installed]

theorem extended_installed (ctx : Context) (block : Block) :
    ctx.extended block.installed = ctx.extended block := by
  unfold extended
  rw [opened_installed, Block.keyed_installed]

theorem commit_installed (he : ctx.errors block = []) :
    ctx.commit block.installed = ctx.commit block := by
  have he' : ctx.errors block.installed = [] := by
    unfold errors
    rw [opened_installed]
    exact Validation.errors_installed.2 he
  rw [commit_of_errors_eq_nil he, commit_of_errors_eq_nil he', extended_installed]

theorem commit_nil (ctx : Context) : ctx.commit [] = (.ok (), ctx) := by
  have hseal : ctx.sealBlock ctx.size = ctx := if_neg (Nat.lt_irrefl _)
  rw [commit_of_errors_eq_nil (show ctx.errors [] = [] from rfl)]
  exact congrArg (Prod.mk _) hseal

theorem stageAll_eq_ok {entries : List Entry}
    (hfresh : ∀ e ∈ entries, ∀ c, e.claim? = some c → ctx.index? c.key = none)
    (hapart : (staged ++ entries).Pairwise fun a b => ∀ c, b.claim? = some c → a.claim? ≠ some c) :
    ctx.stageAll staged entries = .ok (staged ++ entries) := by
  induction entries generalizing staged with
  | nil => rw [List.append_nil]; rfl
  | cons e entries ih =>
    rw [List.forall_mem_cons] at hfresh
    have hstage : ctx.stage staged e = .ok (staged ++ [e]) := by
      refine stage_eq_ok_iff.2 ⟨ensureFresh_eq_ok_iff.2 fun c hc =>
        ⟨hfresh.1 c hc, fun s hs => ?_⟩, rfl⟩
      exact (List.pairwise_append.1 hapart).2.2 s hs e List.mem_cons_self c hc
    rw [List.append_cons] at hapart ⊢
    rw [← ih hfresh.2 hapart, stageAll, List.foldlM_cons, hstage]
    rfl

/-- Named and other entries lay no claims of one kind, so that it does not matter which come
first. -/
theorem Staged.stageAll_installed (hs : ctx.Staged block) :
    ctx.stageAll [] block.installed = .ok block.installed := by
  obtain ⟨hfresh, hapart⟩ := hs.fresh
  refine stageAll_eq_ok (fun e he => hfresh e (Block.mem_installed.1 he)) ?_
  rw [List.nil_append, Block.installed]
  refine List.pairwise_append.2 ⟨hapart.filter _, hapart.filter _, fun a ha b hb c hc hclaim => ?_⟩
  obtain ⟨-, x, hx⟩ := Block.mem_named.1 ha
  obtain ⟨-, hnone⟩ := Block.mem_keyed.1 hb
  cases a <;> cases hx <;> cases hclaim <;> cases b <;> cases hnone <;> cases hc

theorem Tiles.stop_le {start stop : Nat} {spans : List Span} (h : Tiles start spans stop)
    {s : Span} (hs : s ∈ spans) :
    s.stop ≤ stop := by
  induction h with
  | nil => cases hs
  | snoc _ hlt ih =>
    rcases List.mem_append.1 hs with hs | hs
    · exact Nat.le_of_lt (Nat.lt_of_le_of_lt (ih hs) hlt)
    · obtain rfl := List.mem_singleton.1 hs
      exact Nat.le_refl _

theorem blockEntries_commit (h : ctx.WellFormed) (he : ctx.errors block = []) :
    (ctx.commit block).2.blockEntries = ctx.blockEntries ++ if block = [] then [] else
      [block.installed] := by
  have hentries : (ctx.commit block).2.entries = ctx.entries ++ block.installed := entries_commit he
  -- the spans of older blocks end before the new entries begin
  have hold : (ctx.blocks.map fun s => ((ctx.commit block).2.entries.take s.stop).drop s.start) =
      ctx.blockEntries := by
    refine List.map_congr_left fun s hs => ?_
    rw [hentries, List.take_append_of_le_length (h.blocks.stop_le hs)]
  unfold blockEntries at hold ⊢
  rw [blocks_commit he, List.map_append, hold]
  congr 1
  have hsize : (ctx.commit block).2.size = ctx.size + block.installed.length := by
    rw [size, hentries, List.length_append]; rfl
  by_cases hnil : block = []
  · subst hnil
    rw [if_pos rfl, if_neg (by rw [hsize]; exact Nat.lt_irrefl _)]
    rfl
  · have hpos : 0 < block.installed.length := by
      obtain ⟨e, he⟩ := List.exists_mem_of_ne_nil block hnil
      exact List.length_pos_of_mem (Block.mem_installed.2 he)
    rw [if_neg hnil, if_pos (by omega)]
    show [((ctx.commit block).2.entries.take (ctx.commit block).2.entries.length).drop
      ctx.entries.length] = _
    rw [List.take_length, hentries, List.drop_left']
    rfl

end Context

end ClosedTypes
