import ClosedTypes.Proofs.Context.Commit
import ClosedTypes.Proofs.Typing.Scope
/-!
What a block that is free of errors adds to a context. Its types are new and take all their
operations with them, so that the types from before keep theirs, and no equation has been given
before.
-/

namespace ClosedTypes

theorem Barrier.permitExtension_eq_ok_iff {ctx : Context} {op owner : Name} {mark : Nat} :
    permitExtension ctx op owner mark = .ok () ↔ ∀ i, ctx.position? owner = some i → mark ≤ i := by
  unfold permitExtension
  cases ctx.position? owner <;> simp

theorem Constructor.Shaped.mono {ctx ctx' : Context} {d : Constructor} {params : List Name}
    (h : d.Shaped ctx params) (hc : ctx.KnownBy ctx') : d.Shaped ctx' params where
  written := Checker.checkWritten_mono h.written hc
  arity := h.arity.imp fun _ ht => ⟨hc.dataType ht.1, ht.2⟩
  result := h.result
  nodup := h.nodup
  fields := h.fields

theorem Eliminator.Shaped.mono {ctx ctx' : Context} {d : Eliminator} {params : List Name}
    (h : d.Shaped ctx params) (hc : ctx.KnownBy ctx') : d.Shaped ctx' params where
  written := Checker.checkWritten_mono h.written hc
  arity := h.arity.imp fun _ ht => ⟨hc.dataType ht.1, ht.2⟩
  scrutinee := h.scrutinee
  nodup := h.nodup
  case motive hm := by
    obtain ⟨t, ht, -⟩ := h.arity
    obtain ⟨hresult, hfresh, hlength, hbranches⟩ := h.case motive hm
    rw [← hc.constructors ht] at hlength hbranches
    exact ⟨hresult, hfresh, hlength, fun p hp => (hbranches p hp).imp fun _ hb =>
      ⟨hc.constructor hb.1, hb.2⟩⟩

namespace Context

variable {ctx ctx' : Context} {block : Block} {x owner : Name} {e : Entry}

namespace Filed

theorem find?_eq_some_iff (h : ctx.Filed) :
    ctx.find? x = some e ↔ e ∈ ctx.entries ∧ e.key = .name x := by
  rw [← h.exists_index?_iff]
  simp only [find?, index?, Option.bind_eq_bind, Option.bind_eq_some_iff]

theorem dataType_eq_ok_iff (h : ctx.Filed) {d : DataType} :
    ctx.dataType x = .ok d ↔ .type d ∈ ctx.entries ∧ d.name = x := by
  rw [Context.dataType_eq_ok_iff, h.find?_eq_some_iff]
  simp [Entry.key]

theorem constructor_eq_ok_iff (h : ctx.Filed) {d : Constructor} :
    ctx.constructor x = .ok d ↔ .constructor d ∈ ctx.entries ∧ d.name = x := by
  rw [Context.constructor_eq_ok_iff, h.find?_eq_some_iff]
  simp [Entry.key]

theorem eliminator_eq_ok_iff (h : ctx.Filed) {d : Eliminator} :
    ctx.eliminator x = .ok d ↔ .eliminator d ∈ ctx.entries ∧ d.name = x := by
  rw [Context.eliminator_eq_ok_iff, h.find?_eq_some_iff]
  simp [Entry.key]

theorem mem_constructors (h : ctx.Filed) :
    x ∈ ctx.constructors owner ↔ ∃ d, .constructor d ∈ ctx.entries ∧ d.owner = owner ∧
    d.name = x := by
  rw [h.constructors_eq, List.mem_filterMap]
  constructor
  · rintro ⟨e, he, hx⟩
    cases e with
    | constructor d =>
      simp only [Entry.constructorOf?, Option.ite_none_right_eq_some, Option.some.injEq] at hx
      exact ⟨d, he, hx⟩
    | _ => cases hx
  · rintro ⟨d, hd, howner, hname⟩
    exact ⟨_, hd, by simp [Entry.constructorOf?, howner, hname]⟩

theorem mem_eliminators (h : ctx.Filed) :
    x ∈ ctx.eliminators owner ↔ ∃ d, .eliminator d ∈ ctx.entries ∧ d.owner = owner ∧
    d.name = x := by
  rw [h.eliminators_eq, List.mem_filterMap]
  constructor
  · rintro ⟨e, he, hx⟩
    cases e with
    | eliminator d =>
      simp only [Entry.eliminatorOf?, Option.ite_none_right_eq_some, Option.some.injEq] at hx
      exact ⟨d, he, hx⟩
    | _ => cases hx
  · rintro ⟨d, hd, howner, hname⟩
    exact ⟨_, hd, by simp [Entry.eliminatorOf?, howner, hname]⟩

theorem index?_eq_none_iff (h : ctx.Filed) {k : Key} :
    ctx.index? k = none ↔ ∀ e ∈ ctx.entries, e.key ≠ k := by
  constructor
  · intro hk e he hkey
    obtain ⟨i, hi⟩ := List.getElem?_of_mem he
    rw [(h.index?_eq_some_iff k i).2 ⟨e, hi, hkey⟩] at hk
    cases hk
  · intro hk
    cases hi : ctx.index? k with
    | none => rfl
    | some i =>
      obtain ⟨e, he, hkey⟩ := (h.index?_eq_some_iff k i).1 hi
      exact absurd hkey (hk e (List.mem_of_getElem? he))

theorem index?_of_append (h : ctx.Filed) (h' : ctx'.Filed) {es : List Entry}
    (he : ctx'.entries = ctx.entries ++ es) {k : Key}
    {i : Nat} (hk : ctx.index? k = some i) : ctx'.index? k = some i ∧ i < ctx.size := by
  obtain ⟨e, hi, hkey⟩ := (h.index?_eq_some_iff k i).1 hk
  have hlt : i < ctx.entries.length := (List.getElem?_eq_some_iff.1 hi).1
  exact ⟨(h'.index?_eq_some_iff k i).2 ⟨e, by rw [he, List.getElem?_append_left hlt, hi], hkey⟩,
    hlt⟩

theorem find?_of_append (h : ctx.Filed) (h' : ctx'.Filed) {es : List Entry}
    (he : ctx'.entries = ctx.entries ++ es)
    (hx : ctx.find? x = some e) : ctx'.find? x = some e := by
  rw [h'.find?_eq_some_iff, he]
  obtain ⟨hmem, hkey⟩ := h.find?_eq_some_iff.1 hx
  exact ⟨List.mem_append_left _ hmem, hkey⟩

end Filed

theorem index?_installAll_of_ne {es : List Entry} {k : Key} (h : ∀ e ∈ es, e.key ≠ k) :
    (ctx.installAll es).index? k = ctx.index? k := by
  induction es generalizing ctx with
  | nil => rfl
  | cons e es ih =>
    obtain ⟨he, hes⟩ := List.forall_mem_cons.1 h
    rw [installAll_cons, ih hes, index?_install, if_neg he]

theorem entries_opened (ctx : Context) (block : Block) :
    (ctx.opened block).entries = ctx.entries ++ block.named :=
  entries_installAll ctx _

theorem filed_opened (hf : ctx.Filed) (hs : ctx.Staged block) : (ctx.opened block).Filed :=
  hf.installAll (fun _ he => hs.fresh_named he) hs.pairwise_named

theorem validated (he : ctx.errors block = []) {e : Entry} (hmem : e ∈ block) :
    Validation.validateEntry (ctx.opened block) block ctx.size e = .ok () :=
  (Validation.errors_eq_nil_iff.1 he).1 e hmem

section

variable (hf : ctx.Filed) (hs : ctx.Staged block)

include hf hs

theorem not_declared_of_permitExtension {op : Name}
    (h : Barrier.permitExtension (ctx.opened block) op owner ctx.size = .ok ()) (d : DataType) :
    ctx.dataType owner ≠ .ok d := by
  intro hd
  obtain ⟨hmem, hname⟩ := hf.dataType_eq_ok_iff.1 hd
  obtain ⟨i, hi⟩ := List.getElem?_of_mem hmem
  have hindex : ctx.index? (.name owner) = some i :=
    (hf.index?_eq_some_iff _ _).2 ⟨_, hi, by rw [Entry.key, hname]⟩
  obtain ⟨hopened, hlt⟩ :=
    hf.index?_of_append (filed_opened hf hs) (entries_opened ctx block) hindex
  have := Barrier.permitExtension_eq_ok_iff.1 h i hopened
  omega

variable (he : ctx.errors block = [])

include he

theorem extendedBy_opened : ctx.ExtendedBy (ctx.opened block) where
  find := hf.find?_of_append (filed_opened hf hs) (entries_opened ctx block)
  constructors {x d} hd := by
    have hnew : block.named.filterMap (Entry.constructorOf? x) = [] := by
      refine List.filterMap_eq_nil_iff.2 fun e hmem => ?_
      cases e with
      | constructor d' =>
        have hval :=
          (Validation.validateConstructor_eq_ok_iff.1 (validated he (Block.mem_named.1 hmem).1)).1
        have hne : d'.owner ≠ x :=
          fun howner => not_declared_of_permitExtension hf hs (howner ▸ hval) d hd
        simp [Entry.constructorOf?, hne]
      | _ => rfl
    rw [(filed_opened hf hs).constructors_eq, entries_opened, List.filterMap_append, hnew,
      List.append_nil, ← hf.constructors_eq]
  eliminators {x d} hd := by
    have hnew : block.named.filterMap (Entry.eliminatorOf? x) = [] := by
      refine List.filterMap_eq_nil_iff.2 fun e hmem => ?_
      cases e with
      | eliminator d' =>
        have hval :=
          (Validation.validateEliminator_eq_ok_iff.1 (validated he (Block.mem_named.1 hmem).1)).1
        have hne : d'.owner ≠ x :=
          fun howner => not_declared_of_permitExtension hf hs (howner ▸ hval) d hd
        simp [Entry.eliminatorOf?, hne]
      | _ => rfl
    rw [(filed_opened hf hs).eliminators_eq, entries_opened, List.filterMap_append, hnew,
      List.append_nil, ← hf.eliminators_eq]

theorem shaped_opened (hshaped : ctx.Shaped) : (ctx.opened block).Shaped where
  constructor {x d} hd := by
    obtain ⟨hmem, hname⟩ := (filed_opened hf hs).constructor_eq_ok_iff.1 hd
    rw [entries_opened, List.mem_append] at hmem
    rcases hmem with hmem | hmem
    · obtain ⟨params, hd⟩ := hshaped.constructor (hf.constructor_eq_ok_iff.2 ⟨hmem, hname⟩)
      exact ⟨params, hd.mono (extendedBy_opened hf hs he).toKnownBy⟩
    · exact (Validation.validateConstructor_eq_ok_iff.1 (validated he (Block.mem_named.1 hmem).1)).2
  eliminator {x d} hd := by
    obtain ⟨hmem, hname⟩ := (filed_opened hf hs).eliminator_eq_ok_iff.1 hd
    rw [entries_opened, List.mem_append] at hmem
    rcases hmem with hmem | hmem
    · obtain ⟨params, hd⟩ := hshaped.eliminator (hf.eliminator_eq_ok_iff.2 ⟨hmem, hname⟩)
      exact ⟨params, hd.mono (extendedBy_opened hf hs he).toKnownBy⟩
    · exact (Validation.validateEliminator_eq_ok_iff.1 (validated he (Block.mem_named.1 hmem).1)).2

theorem eliminator_of_equation {q : Equation} (hshaped : ctx.Shaped) (hq : .equation q ∈ block) :
    (∃ d, .eliminator d ∈ block.named ∧ d.name = q.eliminator) ∧
    ∀ d, ctx.eliminator q.eliminator ≠ .ok d := by
  obtain ⟨e, c, hel, -, -, hp, -⟩ := Validation.validateEquation_eq_ok_iff.1 (validated he hq)
  have hnot (d : Eliminator) : ctx.eliminator q.eliminator ≠ .ok d := fun hd => by
    obtain ⟨params, hshape⟩ := hshaped.eliminator hd
    obtain ⟨t, ht, -⟩ := hshape.arity
    cases hel.symm.trans ((extendedBy_opened hf hs he).eliminator hd)
    exact not_declared_of_permitExtension hf hs hp t ht
  refine ⟨?_, hnot⟩
  obtain ⟨hmem, hname⟩ := (filed_opened hf hs).eliminator_eq_ok_iff.1 hel
  rw [entries_opened, List.mem_append] at hmem
  rcases hmem with hmem | hmem
  · exact absurd (hf.eliminator_eq_ok_iff.2 ⟨hmem, hname⟩) (hnot e)
  · exact ⟨e, hmem, hname⟩

end

theorem pairwise_of_countP {α β : Type} [DecidableEq β] {l : List α} {f : α → β} {p : α → Prop}
    (h : ∀ a ∈ l, p a → l.countP (f · = f a) ≤ 1) : l.Pairwise fun a b => p a → f a ≠ f b := by
  induction l with
  | nil => exact .nil
  | cons a l ih =>
    rw [List.pairwise_cons]
    refine ⟨fun b hb ha hab => ?_, ih fun a' ha' hp => ?_⟩
    · have hone := h a List.mem_cons_self ha
      have hpos : 0 < l.countP (f · = f a) := List.countP_pos_iff.2 ⟨b, hb, by simp [hab]⟩
      rw [List.countP_cons_of_pos (by simp)] at hone
      omega
    · exact Nat.le_trans ((List.sublist_cons_self a l).countP_le)
        (h a' (List.mem_cons_of_mem _ ha') hp)

theorem equationCount_eq (staged : List Entry) (e c : Name) :
    Validation.equationCount staged e c = staged.countP (·.key = .equation e c) := by
  refine List.countP_congr fun s _ => ?_
  cases s <;> simp [Entry.key]

theorem key_ne_name_of_keyed (h : e ∈ block.keyed) : e.key ≠ .name x := fun hkey => by
  have hname := (Block.mem_keyed.1 h).2
  rw [Entry.name?_eq_some_iff.2 hkey] at hname
  cases hname

section

variable (hf : ctx.Filed) (hs : ctx.Staged block) (he : ctx.errors block = [])
  (hshaped : ctx.Shaped)
  (heq : ∀ q, .equation q ∈ ctx.entries → ∃ d, ctx.eliminator q.eliminator = .ok d)

include hf hs he hshaped heq

theorem fresh_keyed (hmem : e ∈ block.keyed) : (ctx.opened block).index? e.key = none := by
  have hnamed : (ctx.opened block).index? e.key = ctx.index? e.key :=
    index?_installAll_of_ne fun e' he' hkey => by
    obtain ⟨-, x, hx⟩ := Block.mem_named.1 he'
    exact key_ne_name_of_keyed hmem (hkey.symm.trans (Entry.name?_eq_some_iff.1 hx))
  rw [hnamed]
  obtain ⟨hblock, hname⟩ := Block.mem_keyed.1 hmem
  cases e with
  | equation q =>
    rw [hf.index?_eq_none_iff]
    intro e' he' hkey
    cases e' with
    | equation q' =>
      simp only [Entry.key, Key.equation.injEq] at hkey
      obtain ⟨d, hd⟩ := heq q' he'
      exact (eliminator_of_equation hf hs he hshaped hblock).2 d (hkey.1 ▸ hd)
    | _ => cases hkey
  | representation d => exact hs.fresh.1 _ hblock _ rfl
  | implementation d => exact hs.fresh.1 _ hblock _ rfl
  | _ => cases hname

omit heq in
theorem pairwise_keyed : block.keyed.Pairwise (·.key ≠ ·.key) := by
  have hcount {e : Entry} (hmem : e ∈ block.keyed) (hclaim : e.claim? = none) :
      block.keyed.countP (·.key = e.key) ≤ 1 := by
    refine Nat.le_trans (List.filter_sublist.countP_le) ?_
    obtain ⟨hblock, -⟩ := Block.mem_keyed.1 hmem
    cases e with
    | equation q =>
      obtain ⟨el, c, hel, hc, howner, -⟩ :=
        Validation.validateEquation_eq_ok_iff.1 (validated he hblock)
      obtain ⟨d, hd, hname⟩ := (eliminator_of_equation hf hs he hshaped hblock).1
      have hopened : (ctx.opened block).eliminator q.eliminator = .ok d :=
        (filed_opened hf hs).eliminator_eq_ok_iff.2
          ⟨by rw [entries_opened]; exact List.mem_append_right _ hd, hname⟩
      obtain rfl : el = d := Except.ok.inj (hel.symm.trans hopened)
      obtain ⟨hcmem, hcname⟩ := (filed_opened hf hs).constructor_eq_ok_iff.1 hc
      have hcs : q.constructor ∈ (ctx.opened block).constructors el.owner :=
        (filed_opened hf hs).mem_constructors.2 ⟨c, hcmem, howner, hcname⟩
      have hone := (Validation.errors_eq_nil_iff.1 he).2.1 el (Block.mem_named.1 hd).1 _ hcs
      rw [equationCount_eq, hname] at hone
      exact Nat.le_of_eq hone
    | _ => cases hclaim
  have hequations : block.keyed.Pairwise fun a b => a.claim? = none → a.key ≠ b.key :=
    pairwise_of_countP fun _ hmem hclaim => hcount hmem hclaim
  refine (hequations.and (hs.fresh.2.filter _)).imp fun {a b} ⟨hne, hclaims⟩ hkey => ?_
  cases ha : a.claim? with
  | none => exact hne ha hkey
  | some c =>
    have hb : b.claim? = some c := by
      rwa [Entry.claim?_eq_some_iff, ← hkey, ← Entry.claim?_eq_some_iff]
    exact hclaims c hb ha

theorem filed_extended : (ctx.extended block).Filed :=
  (filed_opened hf hs).installAll (fun _ hmem => fresh_keyed hf hs he hshaped heq hmem)
    (pairwise_keyed hf hs he hshaped)

theorem extendedBy_extended : (ctx.opened block).ExtendedBy (ctx.extended block) := by
  have hentries : (ctx.extended block).entries = (ctx.opened block).entries ++ block.keyed :=
    entries_installAll _ _
  have hfiled := filed_extended hf hs he hshaped heq
  refine ⟨⟨(filed_opened hf hs).find?_of_append hfiled hentries, fun {x _} _ => ?_⟩,
    fun {x _} _ => ?_⟩
  · have hnone : block.keyed.filterMap (Entry.constructorOf? x) = [] :=
      List.filterMap_eq_nil_iff.2 fun e hmem => by
      have hname := (Block.mem_keyed.1 hmem).2
      cases e with
      | constructor d => cases hname
      | _ => rfl
    rw [hfiled.constructors_eq, hentries, List.filterMap_append, hnone, List.append_nil,
      ← (filed_opened hf hs).constructors_eq]
  · have hnone : block.keyed.filterMap (Entry.eliminatorOf? x) = [] :=
      List.filterMap_eq_nil_iff.2 fun e hmem => by
      have hname := (Block.mem_keyed.1 hmem).2
      cases e with
      | eliminator d => cases hname
      | _ => rfl
    rw [hfiled.eliminators_eq, hentries, List.filterMap_append, hnone, List.append_nil,
      ← (filed_opened hf hs).eliminators_eq]

end

end Context

end ClosedTypes
