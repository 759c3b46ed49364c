import ClosedTypes.Archive.Log
import ClosedTypes.Proofs.Context.WellFormed
/-!
Types are closed with their blocks: the operations of a type stand in the block that declares it,
their equations with them, and its implementations in the block that represents it, which is a later
one.
-/

namespace ClosedTypes

/-- What an entry shares its block with: an operation with its type, an equation with its
eliminator. -/
def Entry.host? : Entry → Option Key
  | constructor d => some (.name d.owner)
  | eliminator d => some (.name d.owner)
  | equation d => some (.name d.eliminator)
  | _ => none

namespace Context

variable {ctx ctx' : Context} {block : Block} {k k' : Key}

def StandsIn (ctx : Context) (k : Key) (s : Span) : Prop :=
  ∃ i, ctx.index? k = some i ∧ s.start ≤ i ∧ i < s.stop

def Together (ctx : Context) (k k' : Key) : Prop :=
  ∃ s ∈ ctx.blocks, ctx.StandsIn k s ∧ ctx.StandsIn k' s

def Before (ctx : Context) (k k' : Key) : Prop :=
  ∃ s ∈ ctx.blocks, (∃ i, ctx.index? k = some i ∧ i < s.start) ∧ ctx.StandsIn k' s

structure Closed (ctx : Context) : Prop where
  operations : ∀ e ∈ ctx.entries, ∀ k, e.host? = some k → ctx.Together e.key k
  implementations : ∀ d, .implementation d ∈ ctx.entries → ∀ owner, ctx.owner? d.op = some owner →
    ctx.Together (.implementation d.op) (.representation owner)
  representations : ∀ d, .representation d ∈ ctx.entries →
    ctx.Before (.name d.typeName) (.representation d.typeName)

theorem representation_or_of_backing? {staged : List Entry} {owner : Name} {backing : Ty}
    (h : Validation.backing? ctx staged owner = some backing) :
    (∃ r, .representation r ∈ staged ∧ r.typeName = owner) ∨
    ∃ r, ctx.representation? owner = some r := by
  unfold Validation.backing? at h
  obtain ⟨r, hr, -⟩ := Option.map_eq_some_iff.1 h
  rcases Option.or_eq_some_iff.1 hr with hr | ⟨-, hr⟩
  · obtain ⟨e, hmem, he⟩ := List.exists_of_findSome?_eq_some hr
    cases e with
    | representation d =>
      simp only [Option.ite_none_right_eq_some, Option.some.injEq] at he
      exact .inl ⟨d, hmem, he.1⟩
    | _ => cases he
  · exact .inr ⟨r, hr⟩

theorem closed_empty : empty.Closed where
  operations := nofun
  implementations := nofun
  representations := nofun

theorem entries_commit (he : ctx.errors block = []) :
    (ctx.commit block).2.entries = ctx.entries ++ (block.named ++ block.keyed) := by
  rw [commit_of_errors_eq_nil he, sealBlock_eq]
  exact entries_extended ctx block

theorem mem_entries_commit (he : ctx.errors block = []) {e : Entry} :
    e ∈ (ctx.commit block).2.entries ↔ e ∈ ctx.entries ∨ e ∈ block := by
  rw [entries_commit he, List.mem_append, List.mem_append, Block.mem_or_mem]

theorem blocks_commit (he : ctx.errors block = []) :
    (ctx.commit block).2.blocks =
      ctx.blocks ++ if ctx.size < (ctx.commit block).2.size then
        [⟨ctx.size, (ctx.commit block).2.size⟩] else [] := by
  rw [commit_of_errors_eq_nil he, sealBlock_eq, show (ctx.extended block).blocks = ctx.blocks by
    simp [extended, opened]]
  rfl

section

variable (h : ctx.WellFormed) (hs : ctx.Staged block) (he : ctx.errors block = [])

include h hs he

theorem extendedBy_commit : (ctx.opened block).ExtendedBy (ctx.commit block).2 := by
  rw [commit_of_errors_eq_nil he, sealBlock_eq]
  exact h.extendedBy_extended hs he _

theorem index?_commit {i : Nat} (hk : ctx.index? k = some i) :
    (ctx.commit block).2.index? k = some i :=
  (h.filed.index?_of_append (h.commit hs).filed (entries_commit he) hk).1

theorem StandsIn.commit {s : Span} (hk : ctx.StandsIn k s) : (ctx.commit block).2.StandsIn k s :=
  hk.imp fun _ hi => ⟨index?_commit h hs he hi.1, hi.2⟩

omit h hs in
theorem mem_blocks_commit {s : Span} (hmem : s ∈ ctx.blocks) : s ∈ (ctx.commit block).2.blocks := by
  rw [blocks_commit he]
  exact List.mem_append_left _ hmem

theorem Together.commit (hk : ctx.Together k k') : (ctx.commit block).2.Together k k' := by
  obtain ⟨s, hmem, hk, hk'⟩ := hk
  exact ⟨s, mem_blocks_commit he hmem, hk.commit h hs he, hk'.commit h hs he⟩

theorem standsIn_commit {e : Entry} (hmem : e ∈ block) :
    (⟨ctx.size, (ctx.commit block).2.size⟩ : Span) ∈ (ctx.commit block).2.blocks ∧
      (ctx.commit block).2.StandsIn e.key ⟨ctx.size, (ctx.commit block).2.size⟩ := by
  obtain ⟨j, hj⟩ := List.getElem?_of_mem (List.mem_append.2 (Block.mem_or_mem.2 hmem))
  have hi : (ctx.commit block).2.entries[ctx.size + j]? = some e := by
    rw [entries_commit he, size, List.getElem?_append_right (Nat.le_add_right _ _),
      Nat.add_sub_cancel_left]
    exact hj
  have hlt : ctx.size + j < (ctx.commit block).2.size := (List.getElem?_eq_some_iff.1 hi).1
  refine ⟨?_, ctx.size + j, ((h.commit hs).filed.index?_eq_some_iff _ _).2 ⟨e, hi, rfl⟩,
    Nat.le_add_right _ _, hlt⟩
  rw [blocks_commit he, if_pos (by omega)]
  exact List.mem_append_right _ List.mem_cons_self

theorem together_commit {e e' : Entry} (hmem : e ∈ block) (hmem' : e' ∈ block) :
    (ctx.commit block).2.Together e.key e'.key :=
  ⟨_, (standsIn_commit h hs he hmem).1, (standsIn_commit h hs he hmem).2,
    (standsIn_commit h hs he hmem').2⟩

omit he in
theorem exists_type_of_permitExtension {op owner : Name} {t : DataType}
    (hp : Barrier.permitExtension (ctx.opened block) op owner ctx.size = .ok ())
    (ht : (ctx.opened block).dataType owner = .ok t) :
    ∃ e ∈ block, e.key = .name owner := by
  obtain ⟨hmem, rfl⟩ := (filed_opened h.filed hs).dataType_eq_ok_iff.1 ht
  rw [entries_opened, List.mem_append] at hmem
  rcases hmem with hmem | hmem
  · exact absurd (h.filed.dataType_eq_ok_iff.2 ⟨hmem, rfl⟩)
      (not_declared_of_permitExtension h.filed hs hp t)
  · exact ⟨_, (Block.mem_named.1 hmem).1, rfl⟩

theorem together_host {e : Entry} (hmem : e ∈ block) (hk : e.host? = some k) :
    (ctx.commit block).2.Together e.key k := by
  have hval := validated he hmem
  have host : ∃ e' ∈ block, e'.key = k := by
    cases e with
    | constructor d =>
      cases hk
      obtain ⟨hp, params, hshape⟩ := Validation.validateConstructor_eq_ok_iff.1 hval
      obtain ⟨t, ht, -⟩ := hshape.arity
      exact exists_type_of_permitExtension h hs hp ht
    | eliminator d =>
      cases hk
      obtain ⟨hp, params, hshape⟩ := Validation.validateEliminator_eq_ok_iff.1 hval
      obtain ⟨t, ht, -⟩ := hshape.arity
      exact exists_type_of_permitExtension h hs hp ht
    | equation q =>
      cases hk
      obtain ⟨⟨d, hd, hname⟩, -⟩ := eliminator_of_equation h.filed hs he h.shaped hmem
      exact ⟨_, (Block.mem_named.1 hd).1, congrArg Key.name hname⟩
    | _ => cases hk
  obtain ⟨e', hmem', rfl⟩ := host
  exact together_commit h hs he hmem hmem'

theorem together_representation {d : Implementation} {owner : Name}
    (hmem : .implementation d ∈ block) (howner : (ctx.commit block).2.owner? d.op = some owner) :
    (ctx.commit block).2.Together (.implementation d.op) (.representation owner) := by
  obtain ⟨owner', backing, t, howner', hbacking, -⟩ :=
    Validation.validateImplementation_eq_ok_iff.1 (validated he hmem)
  have hsame : (ctx.commit block).2.owner? d.op = some owner' :=
    owner?_mono (extendedBy_commit h hs he).toKnownBy howner'
  obtain rfl : owner' = owner := Option.some.inj (hsame.symm.trans howner)
  rcases representation_or_of_backing? hbacking with ⟨r, hr, rfl⟩ | ⟨r, hr⟩
  · exact together_commit h hs he hmem hr
  · -- the type is represented already, so that the operation has an implementation and cannot be
    -- given another
    obtain ⟨hrmem, rfl⟩ := (filed_opened h.filed hs).representation?_eq_some_iff.1 hr
    rw [entries_opened, List.mem_append, Block.mem_named] at hrmem
    have hrctx : .representation r ∈ ctx.entries :=
      hrmem.resolve_right fun ⟨_, x, hx⟩ => by cases hx
    obtain ⟨⟨t, ht⟩, himp⟩ := h.representations r hrctx
    have hctx := extendedBy_opened h.filed hs he
    have hop : d.op ∈ ctx.operations r.typeName := by
      rw [operations, ← hctx.constructors ht, ← hctx.eliminators ht, List.mem_append,
        (filed_opened h.filed hs).mem_constructors, (filed_opened h.filed hs).mem_eliminators]
      rcases owner?_eq_some_iff.1 howner' with ⟨e, he, ho⟩ | ⟨e, he, ho⟩
      · obtain ⟨hmem, hname⟩ := (filed_opened h.filed hs).constructor_eq_ok_iff.1 he
        exact .inl ⟨e, hmem, ho, hname⟩
      · obtain ⟨hmem, hname⟩ := (filed_opened h.filed hs).eliminator_eq_ok_iff.1 he
        exact .inr ⟨e, hmem, ho, hname⟩
    obtain ⟨body, hbody⟩ := himp d.op hop
    have hfresh : ctx.index? (.implementation d.op) = none :=
      hs.fresh.1 _ hmem (.implementation d.op) rfl
    exact absurd rfl (h.filed.index?_eq_none_iff.1 hfresh _ hbody)

end

theorem Closed.commit (hc : ctx.Closed) (h : ctx.WellFormed) (hs : ctx.Staged block) :
    (ctx.commit block).2.Closed := by
  by_cases he : ctx.errors block = []
  · refine ⟨fun e hmem k hk => ?_, fun d hmem owner howner => ?_, fun d hmem => ?_⟩
    -- what the context held already stays where it is; what is new was staged in one block with its
    -- host
    · rcases (mem_entries_commit he).1 hmem with hmem | hmem
      · exact (hc.operations e hmem k hk).commit h hs he
      · exact together_host h hs he hmem hk
    · rcases (mem_entries_commit he).1 hmem with hmem | hmem
      · obtain ⟨owner', r, t, hd⟩ := h.implementations d hmem
        have hall := (extendedBy_opened h.filed hs he).trans (extendedBy_commit h hs he)
        obtain rfl : owner' = owner :=
          Option.some.inj ((owner?_mono hall.toKnownBy hd.operation).symm.trans howner)
        exact (hc.implementations d hmem owner' hd.operation).commit h hs he
      · exact together_representation h hs he hmem howner
    · rcases (mem_entries_commit he).1 hmem with hmem | hmem
      · obtain ⟨s, hs', ⟨i, hi, hlt⟩, hk⟩ := hc.representations d hmem
        exact ⟨s, mem_blocks_commit he hs', ⟨i, index?_commit h hs he hi, hlt⟩, hk.commit h hs he⟩
      · obtain ⟨i, t, hi, hlt, -⟩ :=
          Validation.validateRepresentation_eq_ok_iff.1 (validated he hmem)
        obtain ⟨hspan, hstands⟩ := standsIn_commit h hs he hmem
        have hentries : (ctx.commit block).2.entries = (ctx.opened block).entries ++
            block.keyed := by
          rw [entries_commit he, entries_opened, List.append_assoc]
        have hopened : (ctx.opened block).index? (.name d.typeName) = some i := hi
        have hindex :=
          ((filed_opened h.filed hs).index?_of_append (h.commit hs).filed hentries hopened).1
        exact ⟨_, hspan, ⟨i, hindex, hlt⟩, hstands⟩
  · rw [h.commit_eq_self hs he]
    exact hc

theorem Reachable.closed (h : Reachable ctx) : ctx.Closed := by
  induction h with
  | empty => exact closed_empty
  | commit hr hs ih => exact ih.commit hr.wellFormed hs

end Context

end ClosedTypes
