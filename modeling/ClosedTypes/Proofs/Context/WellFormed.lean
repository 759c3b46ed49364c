import ClosedTypes.Proofs.Context.Growth
import ClosedTypes.Proofs.Context.Rollback
/-!
Well-formed contexts: what the validators ask of single entries and whole blocks, said of the whole
log at once. Every commit keeps a context well-formed, whatever is staged and however it ends.
-/

namespace ClosedTypes

structure Equation.Checked (ctx : Context) (d : Equation) (e : Eliminator) (c : Constructor) :
    Prop where
  eliminator : ctx.eliminator d.eliminator = .ok e
  constructor : ctx.constructor d.constructor = .ok c
  owner : c.owner = e.owner
  length : d.binders.length = c.fields.length + e.rest.length
  nodup : d.binders.Nodup
  free : ∀ x ∈ d.rhs.free, x ∈ d.binders
  rhs : Validation.checkUnder ctx (d.binders.zip (e.binderTypes c)) d.rhs e.result = .ok ()

structure Implementation.Checked (ctx : Context) (d : Implementation) (owner : Name)
    (r : Representation) (type : Ty) : Prop where
  operation : ctx.owner? d.op = some owner
  represented : ctx.representation? owner = some r
  signature : Validation.signatureOnBacking ctx d.op r.backing.toTy = .ok type
  body : Validation.checkUnder ctx [] d.body type = .ok ()

/-- The representation of a declared type all of whose operations are implemented. -/
structure Representation.Complete (ctx : Context) (d : Representation) : Prop where
  declared : ∃ t, ctx.dataType d.typeName = .ok t
  implemented : ∀ op ∈ ctx.operations d.typeName, ∃ body, .implementation ⟨op, body⟩ ∈ ctx.entries

namespace Context

/-- Non-empty spans, one after the other, from `start` to `stop`. -/
inductive Tiles : Nat → List Span → Nat → Prop where
  | nil {start : Nat} : Tiles start [] start
  | snoc {start mid stop : Nat} {spans : List Span} : Tiles start spans mid → mid < stop →
    Tiles start (spans ++ [⟨mid, stop⟩]) stop

structure WellFormed (ctx : Context) : Prop where
  filed : ctx.Filed
  settled : ctx.Settled
  distinct : (ctx.entries.map Entry.key).Nodup
  blocks : Tiles 0 ctx.blocks ctx.size
  constructors : ∀ d, .constructor d ∈ ctx.entries → ∃ params, d.Shaped ctx params
  eliminators : ∀ d, .eliminator d ∈ ctx.entries → ∃ params, d.Shaped ctx params
  coverage : ∀ d, .eliminator d ∈ ctx.entries → ∀ c ∈ ctx.constructors d.owner,
    Validation.equationCount ctx.entries d.name c = 1
  equations : ∀ d, .equation d ∈ ctx.entries → ∃ e c, d.Checked ctx e c
  representations : ∀ d, .representation d ∈ ctx.entries → d.Complete ctx
  implementations : ∀ d, .implementation d ∈ ctx.entries →
    ∃ owner r signature, d.Checked ctx owner r signature

variable {ctx ctx' : Context} {block : Block}

theorem WellFormed.shaped (h : ctx.WellFormed) : ctx.Shaped where
  constructor hd := h.constructors _ (h.filed.constructor_eq_ok_iff.1 hd).1
  eliminator hd := h.eliminators _ (h.filed.eliminator_eq_ok_iff.1 hd).1

theorem WellFormed.exists_eliminator (h : ctx.WellFormed) (q : Equation)
    (hq : .equation q ∈ ctx.entries) :
    ∃ d, ctx.eliminator q.eliminator = .ok d := by
  obtain ⟨e, c, hq⟩ := h.equations q hq
  exact ⟨e, hq.eliminator⟩

theorem WellFormed.checked_of_equation? (h : ctx.WellFormed) {e c : Name} {d : Equation}
    (hd : ctx.equation? e c = some d) :
    ∃ elim ctor, ctx.eliminator e = .ok elim ∧ ctx.constructor c = .ok ctor ∧
    d.Checked ctx elim ctor := by
  obtain ⟨hmem, rfl, rfl⟩ := h.filed.equation?_eq_some_iff.1 hd
  obtain ⟨elim, ctor, hd⟩ := h.equations d hmem
  exact ⟨elim, ctor, hd.eliminator, hd.constructor, hd⟩

theorem written_binderTypes {e : Eliminator} {c : Constructor} {params params' : List Name}
    (he : e.Shaped ctx params)
    (hc : c.Shaped ctx params') : ∀ t ∈ e.binderTypes c, Checker.checkWritten ctx t = .ok () := by
  have hrest : ∀ t ∈ e.rest, Checker.checkWritten ctx t = .ok () := fun t ht =>
    (Checker.checkWritten_parts he.written).1 t (List.mem_of_mem_tail ht)
  have hfields : ∀ t ∈ c.fields, Checker.checkWritten ctx t = .ok () :=
    (Checker.checkWritten_parts hc.written).1
  unfold Eliminator.binderTypes
  rw [he.scrutinee]
  intro t ht
  rcases List.mem_append.1 ht with ht | ht
  · obtain ⟨field, hfield, rfl⟩ := List.mem_map.1 ht
    refine Checker.checkWritten_subst (hfields field hfield) fun x u hu => ?_
    obtain ⟨y, -, rfl⟩ := List.mem_map.1 (List.of_mem_zip (Index.mem_of_find?_ofList hu)).2
    rfl
  · exact hrest t ht

theorem length_binderTypes (e : Eliminator) (c : Constructor) :
    (e.binderTypes c).length = c.fields.length + e.rest.length := by
  simp [Eliminator.binderTypes]

end Context

theorem Equation.checkUnder_mono {ctx ctx' : Context} {d : Equation} {e : Eliminator}
    {c : Constructor} (hctx : ctx.Shaped)
    (hc : ctx.KnownBy ctx') (hel : ctx.eliminator d.eliminator = .ok e)
    (hctor : ctx.constructor d.constructor = .ok c)
    (h : Validation.checkUnder ctx (d.binders.zip (e.binderTypes c)) d.rhs e.result = .ok ()) :
    Validation.checkUnder ctx' (d.binders.zip (e.binderTypes c)) d.rhs e.result = .ok () := by
  obtain ⟨params, he⟩ := hctx.eliminator hel
  obtain ⟨params', hc'⟩ := hctx.constructor hctor
  have hassumptions : ∀ p ∈ d.binders.zip (e.binderTypes c), Checker.checkWritten ctx p.2 =
      .ok () := fun p hp =>
    Context.written_binderTypes he hc' p.2 (List.of_mem_zip hp).2
  have hresult : Checker.checkWritten ctx e.result = .ok () :=
    (Checker.checkWritten_parts he.written).2
  exact Checker.checkUnder_mono hctx hassumptions hresult hc h

theorem Equation.Checked.mono {ctx ctx' : Context} {d : Equation} {e : Eliminator} {c : Constructor}
    (h : d.Checked ctx e c) (hctx : ctx.Shaped) (hc : ctx.KnownBy ctx') : d.Checked ctx' e c where
  eliminator := hc.eliminator h.eliminator
  constructor := hc.constructor h.constructor
  owner := h.owner
  length := h.length
  nodup := h.nodup
  free := h.free
  rhs := Equation.checkUnder_mono hctx hc h.eliminator h.constructor h.rhs

theorem Validation.signatureOnBacking_eq_ok_iff {ctx : Context} {op : Name} {backing t : Ty} :
    signatureOnBacking ctx op backing = .ok t ↔
      (∃ d, ctx.constructor op = .ok d ∧ d.signature.substConst d.owner backing = t) ∨
        ∃ d, ctx.eliminator op = .ok d ∧ d.signature.substConst d.owner backing = t := by
  unfold signatureOnBacking
  simp only [bind_eq_ok_iff, Context.lookup_eq_ok_iff, Context.constructor_eq_ok_iff,
    Context.eliminator_eq_ok_iff]
  constructor
  · rintro ⟨e, he, h⟩
    cases e with
    | constructor d => exact .inl ⟨d, he, by simpa using h⟩
    | eliminator d => exact .inr ⟨d, he, by simpa using h⟩
    | _ => simp at h
  · rintro (⟨d, hd, rfl⟩ | ⟨d, hd, rfl⟩)
    · exact ⟨_, hd, rfl⟩
    · exact ⟨_, hd, rfl⟩

theorem Context.owner?_eq_some_iff {ctx : Context} {op owner : Name} :
    ctx.owner? op = some owner ↔
      (∃ d, ctx.constructor op = .ok d ∧ d.owner = owner) ∨ ∃ d, ctx.eliminator op = .ok d ∧
      d.owner = owner := by
  unfold Context.owner?
  simp only [Context.constructor_eq_ok_iff, Context.eliminator_eq_ok_iff]
  cases ctx.find? op with
  | none => simp
  | some e => cases e <;> simp

theorem Validation.written_signatureOnBacking {ctx : Context} {op : Name} {b : Backing}
    {t : Ty} (h : ctx.Shaped)
    (ht : signatureOnBacking ctx op b.toTy = .ok t) : Checker.checkWritten ctx t = .ok () := by
  rcases signatureOnBacking_eq_ok_iff.1 ht with ⟨e, he, rfl⟩ | ⟨e, he, rfl⟩
  · obtain ⟨params, hshape⟩ := h.constructor he
    exact Checker.checkWritten_substConst hshape.written b.checkWritten_toTy
  · obtain ⟨params, hshape⟩ := h.eliminator he
    exact Checker.checkWritten_substConst hshape.written b.checkWritten_toTy

theorem Context.owner?_mono {ctx ctx' : Context} (hc : ctx.KnownBy ctx') {op owner : Name}
    (h : ctx.owner? op = some owner) :
    ctx'.owner? op = some owner :=
  owner?_eq_some_iff.2 ((owner?_eq_some_iff.1 h).imp (fun ⟨e, he, ho⟩ => ⟨e, hc.constructor he, ho⟩)
    fun ⟨e, he, ho⟩ => ⟨e, hc.eliminator he, ho⟩)

theorem Validation.signatureOnBacking_mono {ctx ctx' : Context} (hc : ctx.KnownBy ctx')
    {op : Name} {backing t : Ty}
    (h : signatureOnBacking ctx op backing = .ok t) : signatureOnBacking ctx' op backing = .ok t :=
  signatureOnBacking_eq_ok_iff.2
    ((signatureOnBacking_eq_ok_iff.1 h).imp (fun ⟨e, he, ht⟩ => ⟨e, hc.constructor he, ht⟩)
    fun ⟨e, he, ht⟩ => ⟨e, hc.eliminator he, ht⟩)

theorem Implementation.checked_of_knownBy {ctx ctx' : Context} {d : Implementation} {owner : Name}
    {r : Representation} {t : Ty}
    (hctx : ctx.Shaped) (hc : ctx.KnownBy ctx') (howner : ctx.owner? d.op = some owner)
    (ht : Validation.signatureOnBacking ctx d.op r.backing.toTy = .ok t)
    (hbody : Validation.checkUnder ctx [] d.body t = .ok ())
    (hr : ctx'.representation? owner = some r) : d.Checked ctx' owner r t where
  operation := Context.owner?_mono hc howner
  represented := hr
  signature := Validation.signatureOnBacking_mono hc ht
  body :=
    Checker.checkUnder_mono hctx nofun (Validation.written_signatureOnBacking hctx ht) hc hbody

namespace Context

variable {ctx : Context} {block : Block}

theorem extendedBy_blocks (ctx : Context) (blocks : List Span) :
    ctx.ExtendedBy { ctx with blocks } :=
  ⟨⟨id, fun _ => rfl⟩, fun _ => rfl⟩

theorem Filed.withBlocks (h : ctx.Filed) (blocks : List Span) : Filed { ctx with blocks } :=
  ⟨h.index?_eq_some_iff, h.constructors_eq, h.eliminators_eq⟩

theorem mem_entries_opened {e : Entry} :
    e ∈ (ctx.opened block).entries ↔ e ∈ ctx.entries ∨ e ∈ block ∧ ∃ x, e.name? = some x := by
  rw [entries_opened, List.mem_append, Block.mem_named]

theorem mem_entries_extended {e : Entry} :
    e ∈ (ctx.extended block).entries ↔ e ∈ ctx.entries ∨ e ∈ block := by
  rw [entries_extended, List.mem_append, List.mem_append, Block.mem_or_mem]

theorem representation_of_backing? {ctx' : Context} {staged : List Entry} {owner : Name}
    {backing : Ty} (hf : ctx'.Filed) (hstaged : ∀ e ∈ staged, e ∈ ctx'.entries)
    (hctx : ∀ r, ctx.representation? owner = some r → ctx'.representation? owner = some r)
    (h : Validation.backing? ctx staged owner = some backing) :
    ∃ r, ctx'.representation? owner = some r ∧ r.backing.toTy = backing := by
  unfold Validation.backing? at h
  obtain ⟨r, hr, rfl⟩ := Option.map_eq_some_iff.1 h
  refine ⟨r, ?_, rfl⟩
  rcases Option.or_eq_some_iff.1 hr with hr | ⟨-, hr⟩
  · obtain ⟨e, hmem, he⟩ := List.exists_of_findSome?_eq_some hr
    cases e with
    | representation d =>
      simp only [Option.ite_none_right_eq_some, Option.some.injEq] at he
      obtain ⟨hname, rfl⟩ := he
      exact hf.representation?_eq_some_iff.2 ⟨hstaged _ hmem, hname⟩
    | _ => cases he
  · exact hctx r hr

section

variable (h : ctx.WellFormed) (hs : ctx.Staged block) (he : ctx.errors block = [])

include h hs he

theorem WellFormed.coverage_extended {d : Eliminator}
    (hd : .eliminator d ∈ (ctx.extended block).entries) {c : Name}
    (hc : c ∈ (ctx.opened block).constructors d.owner) :
    Validation.equationCount (ctx.extended block).entries d.name c = 1 := by
  have hsplit : Validation.equationCount (ctx.extended block).entries d.name c =
      Validation.equationCount ctx.entries d.name c + Validation.equationCount block d.name c := by
    simp only [equationCount_eq, entries_extended, List.countP_append]
    rw [List.countP_eq_countP_filter_add block _ (·.name?.isSome)]
    rfl
  have hopened := filed_opened h.filed hs
  rcases mem_entries_extended.1 hd with hd | hd
  -- an eliminator of the context got no equations from the block, one of the block had none before
  · have hold : ctx.eliminator d.name = .ok d := h.filed.eliminator_eq_ok_iff.2 ⟨hd, rfl⟩
    have hnone : Validation.equationCount block d.name c = 0 := by
      rw [equationCount_eq, List.countP_eq_zero]
      intro e hmem hkey
      cases e with
      | equation q =>
        simp only [Entry.key, decide_eq_true_eq, Key.equation.injEq] at hkey
        exact (eliminator_of_equation h.filed hs he h.shaped hmem).2 d (hkey.1 ▸ hold)
      | _ => simp [Entry.key] at hkey
    obtain ⟨params, hshape⟩ := h.eliminators d hd
    obtain ⟨t, ht, -⟩ := hshape.arity
    rw [(extendedBy_opened h.filed hs he).constructors ht] at hc
    rw [hsplit, hnone, h.coverage d hd c hc]
  · have hnone : Validation.equationCount ctx.entries d.name c = 0 := by
      rw [equationCount_eq, List.countP_eq_zero]
      intro e hmem hkey
      cases e with
      | equation q =>
        simp only [Entry.key, decide_eq_true_eq, Key.equation.injEq] at hkey
        obtain ⟨d', hd'⟩ := h.exists_eliminator q hmem
        obtain ⟨hmem', hname⟩ := h.filed.eliminator_eq_ok_iff.1 hd'
        have hfresh : ctx.index? (.name d.name) = none := hs.fresh.1 _ hd (.name d.name) rfl
        exact h.filed.index?_eq_none_iff.1 hfresh _ hmem' (by rw [Entry.key, hname, hkey.1])
      | _ => simp [Entry.key] at hkey
    rw [hsplit, hnone, (Validation.errors_eq_nil_iff.1 he).2.1 d hd c hc]

theorem WellFormed.settled_extended : (ctx.extended block).Settled := by
  have known {ctx ctx' : Context} {es : List Entry} (hf : ctx.Filed) (hf' : ctx'.Filed)
      (hes : ctx'.entries = ctx.entries ++ es)
      {x : Name} (hx : ctx.contains x = true) : ctx'.contains x = true := by
    obtain ⟨i, hi⟩ := Index.contains_iff.1 hx
    have hindex : ctx.index? (.name x) = some i := hi
    exact Index.contains_iff.2 ⟨i, (hf.index?_of_append hf' hes hindex).1⟩
  have hopened := filed_opened h.filed hs
  have declared {x : Name} {d : DataType} (hd : (ctx.opened block).dataType x = .ok d) :
      (ctx.opened block).contains x = true := by
    obtain ⟨hmem, hname⟩ := hopened.dataType_eq_ok_iff.1 hd
    obtain ⟨i, hi⟩ := List.getElem?_of_mem hmem
    exact Index.contains_iff.2
      ⟨i, (hopened.index?_eq_some_iff (.name x) i).2 ⟨_, hi, by rw [Entry.key, hname]⟩⟩
  have hstart : ctx.SettledFor ((ctx.opened block).contains · = true) :=
    ⟨h.settled.positions, h.settled.constructors.mono (fun _ => id) fun _ =>
      known h.filed hopened (entries_opened ctx block), h.settled.eliminators.mono
        (fun _ => id) fun _ => known h.filed hopened (entries_opened ctx block)⟩
  -- owners of the block's operations are found in the opened context, which is why it is the fixed
  -- set of owners here
  have hend : (ctx.extended block).SettledFor ((ctx.opened block).contains · = true) := by
    refine (hstart.installAll (fun d hd => ?_) fun d hd => ?_).installAll
      (fun d hd => ?_) fun d hd => ?_
    · obtain ⟨params, hshape⟩ :=
        (Validation.validateConstructor_eq_ok_iff.1 (validated he (Block.mem_named.1 hd).1)).2
      obtain ⟨t, ht, -⟩ := hshape.arity
      exact declared ht
    · obtain ⟨params, hshape⟩ :=
        (Validation.validateEliminator_eq_ok_iff.1 (validated he (Block.mem_named.1 hd).1)).2
      obtain ⟨t, ht, -⟩ := hshape.arity
      exact declared ht
    · cases (Block.mem_keyed.1 hd).2
    · cases (Block.mem_keyed.1 hd).2
  have hlater {x : Name} : (ctx.opened block).contains x = true →
      (ctx.extended block).contains x = true :=
    known hopened (Context.filed_extended h.filed hs he h.shaped h.exists_eliminator)
      (entries_installAll _ block.keyed)
  exact ⟨hend.positions, hend.constructors.mono (fun _ => id) fun _ => hlater,
    hend.eliminators.mono (fun _ => id) fun _ => hlater⟩

section

variable (blocks : List Span)

theorem WellFormed.filed_extended : Filed { ctx.extended block with blocks } :=
  (Context.filed_extended h.filed hs he h.shaped h.exists_eliminator).withBlocks blocks

theorem WellFormed.extendedBy_extended :
    (ctx.opened block).ExtendedBy { ctx.extended block with blocks } :=
  (Context.extendedBy_extended h.filed hs he h.shaped h.exists_eliminator).trans
    (extendedBy_blocks _ blocks)

theorem WellFormed.equations_extended {d : Equation}
    (hd : .equation d ∈ (ctx.extended block).entries) :
    ∃ e c, d.Checked { ctx.extended block with blocks } e c := by
  have hext := h.extendedBy_extended hs he blocks
  have hshaped : (ctx.opened block).Shaped := shaped_opened h.filed hs he h.shaped
  rcases mem_entries_extended.1 hd with hd | hd
  · obtain ⟨e, c, hd⟩ := h.equations d hd
    exact ⟨e, c, hd.mono h.shaped ((extendedBy_opened h.filed hs he).trans hext).toKnownBy⟩
  · obtain ⟨e, c, hel, hc, howner, -, hlen, hnodup, hrhs⟩ :=
      Validation.validateEquation_eq_ok_iff.1 (validated he hd)
    have hfree (x : Name) (hx : x ∈ d.rhs.free) : x ∈ d.binders := by
      obtain ⟨p, hp, rfl⟩ := (Checker.inScope_of_checkUnder hshaped hrhs).free x hx
      exact (List.of_mem_zip (List.mem_reverse.1 hp)).1
    have hchecked : d.Checked (ctx.opened block) e c :=
      ⟨hel, hc, howner, hlen.symm.trans (length_binderTypes e c), hnodup, hfree, hrhs⟩
    exact ⟨e, c, hchecked.mono hshaped hext.toKnownBy⟩

theorem WellFormed.representations_extended {d : Representation}
    (hd : .representation d ∈ (ctx.extended block).entries) :
    d.Complete { ctx.extended block with blocks } := by
  have hext := h.extendedBy_extended hs he blocks
  have hall := (extendedBy_opened h.filed hs he).trans hext
  rcases mem_entries_extended.1 hd with hd | hd
  · obtain ⟨⟨t, ht⟩, himp⟩ := h.representations d hd
    refine ⟨⟨t, hall.dataType ht⟩, fun op hop => ?_⟩
    rw [operations, hall.constructors ht, hall.eliminators ht] at hop
    exact (himp op hop).imp fun _ hmem => mem_entries_extended.2 (.inl hmem)
  · obtain ⟨-, t, -, -, ht⟩ := Validation.validateRepresentation_eq_ok_iff.1 (validated he hd)
    refine ⟨⟨t, hext.dataType ht⟩, fun op hop => ?_⟩
    rw [operations, hext.constructors ht, hext.eliminators ht] at hop
    exact ((Validation.errors_eq_nil_iff.1 he).2.2 d hd op hop).imp fun _ hmem =>
      mem_entries_extended.2 (.inr hmem)

theorem WellFormed.implementations_extended {d : Implementation}
    (hd : .implementation d ∈ (ctx.extended block).entries) :
    ∃ owner r signature, d.Checked { ctx.extended block with blocks } owner r signature := by
  have hext := h.extendedBy_extended hs he blocks
  have hfiled := h.filed_extended hs he blocks
  have hopened := filed_opened h.filed hs
  have hkept {owner : Name} {r : Representation} (hr : ctx.representation? owner = some r) :
      Context.representation? { ctx.extended block with blocks } owner = some r := by
    obtain ⟨hmem, hname⟩ := h.filed.representation?_eq_some_iff.1 hr
    exact hfiled.representation?_eq_some_iff.2 ⟨mem_entries_extended.2 (.inl hmem), hname⟩
  rcases mem_entries_extended.1 hd with hd | hd
  · obtain ⟨owner, r, t, hd⟩ := h.implementations d hd
    have hall := (extendedBy_opened h.filed hs he).trans hext
    exact ⟨owner, r, t, Implementation.checked_of_knownBy h.shaped hall.toKnownBy hd.operation
      hd.signature hd.body (hkept hd.represented)⟩
  · obtain ⟨owner, backing, t, howner, hbacking, ht, hbody⟩ :=
      Validation.validateImplementation_eq_ok_iff.1 (validated he hd)
    have hlater (r : Representation) (hr : (ctx.opened block).representation? owner = some r) :
        Context.representation? { ctx.extended block with blocks } owner = some r := by
      obtain ⟨hmem, hname⟩ := hopened.representation?_eq_some_iff.1 hr
      exact hfiled.representation?_eq_some_iff.2
        ⟨mem_entries_extended.2 ((mem_entries_opened.1 hmem).imp_right And.left), hname⟩
    obtain ⟨r, hr, rfl⟩ :=
      representation_of_backing? hfiled (fun e hmem => mem_entries_extended.2 (.inr hmem))
        hlater hbacking
    have hshaped : (ctx.opened block).Shaped := shaped_opened h.filed hs he h.shaped
    exact ⟨owner, r, t, Implementation.checked_of_knownBy hshaped hext.toKnownBy howner ht hbody hr⟩

/-- A block that is free of errors keeps the context well-formed. -/
theorem WellFormed.extended (hblocks : Tiles 0 blocks (ctx.extended block).size) :
    WellFormed { ctx.extended block with blocks } := by
  have hext := h.extendedBy_extended hs he blocks
  have hopened := filed_opened h.filed hs
  have hshaped : (ctx.opened block).Shaped := shaped_opened h.filed hs he h.shaped
  have named {e : Entry} (hmem : e ∈ (ctx.extended block).entries) {x : Name}
      (hx : e.name? = some x) :
      e ∈ (ctx.opened block).entries :=
    mem_entries_opened.2 ((mem_entries_extended.1 hmem).imp_right fun hmem => ⟨hmem, x, hx⟩)
  have hfiled := h.filed_extended hs he blocks
  have hsettled := h.settled_extended hs he
  refine ⟨hfiled, ⟨hsettled.positions, hsettled.constructors, hsettled.eliminators⟩,
    hfiled.keys_nodup, hblocks, fun d hd => ?_, fun d hd => ?_, fun d hd c hc => ?_, fun _ =>
      h.equations_extended hs he blocks,
    fun _ => h.representations_extended hs he blocks, fun _ =>
      h.implementations_extended hs he blocks⟩
  · obtain ⟨params, hd⟩ := hshaped.constructor (hopened.constructor_eq_ok_iff.2 ⟨named hd rfl, rfl⟩)
    exact ⟨params, hd.mono hext.toKnownBy⟩
  · obtain ⟨params, hd⟩ := hshaped.eliminator (hopened.eliminator_eq_ok_iff.2 ⟨named hd rfl, rfl⟩)
    exact ⟨params, hd.mono hext.toKnownBy⟩
  · obtain ⟨params, hshape⟩ :=
      hshaped.eliminator (hopened.eliminator_eq_ok_iff.2 ⟨named hd rfl, rfl⟩)
    obtain ⟨t, ht, -⟩ := hshape.arity
    rw [hext.constructors ht] at hc
    exact h.coverage_extended hs he hd hc

end

end

theorem wellFormed_empty : empty.WellFormed where
  filed := filed_empty
  settled := settled_empty
  distinct := .nil
  blocks := .nil
  constructors := nofun
  eliminators := nofun
  coverage := nofun
  equations := nofun
  representations := nofun
  implementations := nofun

theorem sealBlock_eq (ctx : Context) (mark : Nat) :
    ctx.sealBlock mark =
      { ctx with blocks := ctx.blocks ++ if mark < ctx.size then [⟨mark, ctx.size⟩] else [] } := by
  unfold sealBlock
  split <;> simp

theorem WellFormed.commit_eq_self (h : ctx.WellFormed) (hs : ctx.Staged block)
    (he : ctx.errors block ≠ []) :
    (ctx.commit block).2 = ctx := by
  rw [commit_of_errors_ne_nil he, hs.rollback_opened, h.settled.rollback]

theorem WellFormed.commit (h : ctx.WellFormed) (hs : ctx.Staged block) :
    (ctx.commit block).2.WellFormed := by
  by_cases he : ctx.errors block = []
  · rw [commit_of_errors_eq_nil he, sealBlock_eq]
    have hblocks : (ctx.extended block).blocks = ctx.blocks := by simp [Context.extended, opened]
    have hsize : ctx.size ≤ (ctx.extended block).size := by simp [size, entries_extended]
    refine h.extended hs he _ ?_
    rw [hblocks]
    split
    · rename_i hlt
      exact .snoc h.blocks hlt
    · rename_i hle
      rw [List.append_nil, show (ctx.extended block).size = ctx.size by omega]
      exact h.blocks
  · rw [h.commit_eq_self hs he]
    exact h

theorem Reachable.wellFormed (h : Reachable ctx) : ctx.WellFormed := by
  induction h with
  | empty => exact wellFormed_empty
  | commit _ hs ih => exact ih.commit hs

end Context

end ClosedTypes
