import ClosedTypes.Proofs.Context.Commit
/-!
Rollback restores. It filters and does not bring back a copy, which comes to the same because every
name that a commit tries to add is new, while every list that was there before has an owner and a
member that stay.
-/

namespace ClosedTypes

namespace Context

def prune (names : Index Name Nat) (lists : Index Name (List Name)) : Index Name (List Name) :=
  (lists.mapValues (·.filter names.contains)).filter fun owner ops =>
    !ops.isEmpty && names.contains owner

def Supported (names : Index Name Nat) (owners : Name → Prop) (lists : Index Name (List Name)) :
    Prop :=
  ∀ p ∈ lists.entries, p.2 ≠ [] ∧ owners p.1 ∧ ∀ x ∈ p.2, names.contains x = true

theorem prune_of_supported {names : Index Name Nat} {lists : Index Name (List Name)}
    (h : Supported names (names.contains · = true) lists) : prune names lists = lists := by
  obtain ⟨es⟩ := lists
  have hmap : (es.map fun p => (p.1, p.2.filter names.contains)) = es := by
    conv => rhs; rw [← List.map_id es]
    refine List.map_congr_left fun p hp => ?_
    rw [List.filter_eq_self.2 (h p hp).2.2]
    rfl
  have hfilter : (es.filter fun p => !p.2.isEmpty && names.contains p.1) = es := by
    refine List.filter_eq_self.2 fun p hp => ?_
    obtain ⟨hne, howner, _⟩ := h p hp
    simp [hne, howner]
  unfold prune Index.mapValues Index.filter
  rw [hmap, hfilter]

theorem prune_insert {names : Index Name Nat} {lists : Index Name (List Name)} {owner x : Name}
    (h : names.contains x = false) :
    prune names (lists.insert owner ((lists.find? owner).getD [] ++ [x])) = prune names lists := by
  obtain ⟨es⟩ := lists
  unfold prune Index.mapValues Index.filter Index.insert Index.find?
  cases hl : Index.look owner es with
  | none =>
    rw [Index.put_of_look_eq_none hl]
    simp [h]
  | some ops =>
    rw [Index.map_put_of_look hl]
    simp [List.filter_append, h]

theorem Supported.insert {names : Index Name Nat} {owners : Name → Prop}
    {lists : Index Name (List Name)} {owner x : Name}
    {i : Nat} (h : Supported names owners lists) (ho : owners owner) :
    Supported (names.insert x i) owners (lists.insert owner
      ((lists.find? owner).getD [] ++ [x])) := by
  -- a list that was there grows at its end, a new one starts with `x`; all others stay
  have known {y : Name} (hy : names.contains y = true) : (names.insert x i).contains y =
      true := by simp [hy]
  intro p hp
  rcases Index.mem_put hp with rfl | hp
  · refine ⟨by simp, ho, fun y hy => ?_⟩
    rcases List.mem_append.1 hy with hy | hy
    · cases hl : lists.find? owner with
      | none => simp [hl] at hy
      | some ops =>
        rw [hl] at hy
        exact known ((h _ (Index.mem_of_look hl)).2.2 y hy)
    · rw [List.mem_singleton.1 hy]
      simp
  · obtain ⟨hne, howner, hmem⟩ := h p hp
    exact ⟨hne, howner, fun y hy => known (hmem y hy)⟩

theorem Supported.mono {names names' : Index Name Nat} {owners owners' : Name → Prop}
    {lists : Index Name (List Name)}
    (h : Supported names owners lists)
    (hn : ∀ x, names.contains x = true → names'.contains x = true)
    (ho : ∀ x, owners x → owners' x) : Supported names' owners' lists := fun p hp =>
  ⟨(h p hp).1, ho _ (h p hp).2.1, fun x hx => hn x ((h p hp).2.2 x hx)⟩

def namesBefore (ctx : Context) (mark : Nat) : Index Name Nat :=
  ctx.names.filter fun _ i => i < mark

theorem rollback_eq (ctx : Context) (mark : Nat) :
    ctx.rollback mark =
      { ctx with
        entries := ctx.entries.take mark
        names := ctx.namesBefore mark
        constructorLists := prune (ctx.namesBefore mark) ctx.constructorLists
        eliminatorLists := prune (ctx.namesBefore mark) ctx.eliminatorLists } := rfl

theorem namesBefore_install {ctx : Context} {e : Entry} {x : Name} {mark : Nat}
    (he : e.name? = some x)
    (fresh : ctx.names.find? x = none) (hm : mark ≤ ctx.size) :
    (ctx.install e).namesBefore mark = ctx.namesBefore mark := by
  have hn : (ctx.install e).names = ctx.names.insert x ctx.size := by
    cases e <;> cases he <;> rfl
  unfold namesBefore
  rw [hn]
  unfold Index.insert Index.filter
  rw [Index.put_of_look_eq_none fresh, List.filter_append]
  simp [hm]

theorem rollback_install {ctx : Context} {e : Entry} {x : Name} {mark : Nat} (he : e.name? = some x)
    (fresh : ctx.names.find? x = none) (hm : mark ≤ ctx.size) :
    (ctx.install e).rollback mark = ctx.rollback mark := by
  -- `x` is younger than the mark, so that pruning drops it again wherever it was entered
  have unknown : (ctx.namesBefore mark).contains x = false := by
    have none : (ctx.namesBefore mark).find? x = none :=
      Index.look_eq_none_iff.2 fun p hp => Index.look_eq_none_iff.1 fresh p (List.mem_filter.1 hp).1
    rw [Index.contains, none]
    rfl
  have hentries : (ctx.install e).entries.take mark = ctx.entries.take mark := by
    rw [entries_install, List.take_append_of_le_length hm]
  have hconstructors : prune (ctx.namesBefore mark) (ctx.install e).constructorLists =
      prune (ctx.namesBefore mark) ctx.constructorLists := by
    cases e with
    | constructor d =>
      cases he
      exact prune_insert unknown
    | _ => rfl
  have heliminators : prune (ctx.namesBefore mark) (ctx.install e).eliminatorLists =
      prune (ctx.namesBefore mark) ctx.eliminatorLists := by
    cases e with
    | eliminator d =>
      cases he
      exact prune_insert unknown
    | _ => rfl
  rw [rollback_eq, rollback_eq, namesBefore_install he fresh hm, hentries, hconstructors,
    heliminators]
  cases e <;> cases he <;> rfl

theorem rollback_installAll {ctx : Context} {es : List Entry} {mark : Nat}
    (named : ∀ e ∈ es, ∃ x, e.name? = some x)
    (fresh : ∀ e ∈ es, ctx.index? e.key = none) (distinct : es.Pairwise (·.key ≠ ·.key))
    (hm : mark ≤ ctx.size) :
    (ctx.installAll es).rollback mark = ctx.rollback mark := by
  induction es generalizing ctx with
  | nil => rfl
  | cons e es ih =>
    rw [List.pairwise_cons] at distinct
    obtain ⟨x, hx⟩ := named e List.mem_cons_self
    have hkey : e.key = .name x := Entry.name?_eq_some_iff.1 hx
    have freshHead : ctx.names.find? x = none := by
      have := fresh e List.mem_cons_self
      rwa [hkey] at this
    have freshTail : ∀ e' ∈ es, (ctx.install e).index? e'.key = none := fun e' he' => by
      rw [index?_install, if_neg (distinct.1 e' he')]
      exact fresh e' (List.mem_cons_of_mem _ he')
    rw [installAll_cons, ih (fun e' he' => named e' (List.mem_cons_of_mem _ he')) freshTail
      distinct.2 (by simp; omega), rollback_install hx freshHead hm]

theorem Staged.rollback_opened {ctx : Context} {block : Block} (h : ctx.Staged block) :
    (ctx.opened block).rollback ctx.size = ctx.rollback ctx.size :=
  rollback_installAll (fun _ he => (Block.mem_named.1 he).2) (fun _ he => h.fresh_named he)
    h.pairwise_named Nat.le.refl

/-- Nothing in the context points past its log or to a type that is not one of the `owners`. -/
structure SettledFor (owners : Name → Prop) (ctx : Context) : Prop where
  positions : ∀ p ∈ ctx.names.entries, p.2 < ctx.size
  constructors : Supported ctx.names owners ctx.constructorLists
  eliminators : Supported ctx.names owners ctx.eliminatorLists

abbrev Settled (ctx : Context) : Prop := ctx.SettledFor (ctx.contains · = true)

theorem settled_empty : empty.Settled where
  positions := nofun
  constructors := nofun
  eliminators := nofun

theorem Settled.rollback {ctx : Context} (h : ctx.Settled) : ctx.rollback ctx.size = ctx := by
  have hnames : ctx.namesBefore ctx.size = ctx.names := by
    obtain ⟨entries, _, ⟨names⟩, _⟩ := ctx
    exact congrArg Index.mk (List.filter_eq_self.2 fun p hp => by simpa using h.positions p hp)
  rw [rollback_eq, hnames, size, List.take_length, prune_of_supported h.constructors,
    prune_of_supported h.eliminators]

theorem SettledFor.install {ctx : Context} {owners : Name → Prop} {e : Entry}
    (h : ctx.SettledFor owners)
    (hc : ∀ d, e = .constructor d → owners d.owner) (he : ∀ d, e = .eliminator d → owners d.owner) :
    (ctx.install e).SettledFor owners := by
  have positions {x : Name} : ∀ p ∈ (ctx.names.insert x ctx.size).entries, p.2 < ctx.size + 1 :=
    fun p hp => by
    rcases Index.mem_put hp with rfl | hp
    · exact Nat.lt_succ_self _
    · exact Nat.lt_succ_of_lt (h.positions p hp)
  have known {x y : Name} (hy : ctx.names.contains y = true) :
      (ctx.names.insert x ctx.size).contains y = true := by simp [hy]
  have old : ∀ p ∈ ctx.names.entries, p.2 < ctx.size + 1 :=
    fun p hp => Nat.lt_succ_of_lt (h.positions p hp)
  rw [← size_install ctx e] at positions old
  cases e with
  | type d =>
    exact ⟨positions, h.constructors.mono (fun _ => known) fun _ => id,
      h.eliminators.mono (fun _ => known) fun _ => id⟩
  | constructor d =>
    exact ⟨positions, h.constructors.insert (hc d rfl), h.eliminators.mono (fun _ => known) fun _ =>
      id⟩
  | eliminator d =>
    exact ⟨positions, h.constructors.mono (fun _ => known) fun _ => id,
      h.eliminators.insert (he d rfl)⟩
  | _ => exact ⟨old, h.constructors, h.eliminators⟩

theorem SettledFor.installAll {ctx : Context} {owners : Name → Prop} {es : List Entry}
    (h : ctx.SettledFor owners)
    (hc : ∀ d, .constructor d ∈ es → owners d.owner)
    (he : ∀ d, .eliminator d ∈ es → owners d.owner) :
    (ctx.installAll es).SettledFor owners := by
  induction es generalizing ctx with
  | nil => exact h
  | cons e es ih =>
    rw [installAll_cons]
    exact ih (h.install (fun d hd => hc d (hd ▸ List.mem_cons_self)) fun d hd =>
      he d (hd ▸ List.mem_cons_self))
      (fun d hd => hc d (List.mem_cons_of_mem _ hd)) fun d hd => he d (List.mem_cons_of_mem _ hd)

end Context

end ClosedTypes
