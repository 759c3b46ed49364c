import ClosedTypes.Proofs.Context.Conservative
import ClosedTypes.Proofs.Context.Installed
import ClosedTypes.Proofs.Reduction.Budget
import Mathlib.Data.List.Pairwise
/-!
The order of declarations. Within a block the entries may come in any order that leaves each type
its constructors in theirs: the block then goes in or not as before, and the context it leads to
gives the same answers.
-/

namespace ClosedTypes

/-- The same entries in another order, the constructors of each type in the order they had. -/
structure Block.Reordered (block block' : Block) : Prop where
  perm : block.Perm block'
  constructors : ∀ owner, block.filterMap (Entry.constructorOf? owner) =
    block'.filterMap (Entry.constructorOf? owner)

namespace Block

variable {block block' : Block} {e : Entry}

theorem Reordered.symm (h : block.Reordered block') : block'.Reordered block :=
  ⟨h.perm.symm, fun owner => (h.constructors owner).symm⟩

theorem Reordered.append (h : block.Reordered block') (before : Block) :
    (before ++ block).Reordered (before ++ block') where
  perm := h.perm.append_left before
  constructors owner := by rw [List.filterMap_append, List.filterMap_append, h.constructors]

theorem constructors_named (owner : Name) :
    block.named.filterMap (Entry.constructorOf? owner) =
      block.filterMap (Entry.constructorOf? owner) := by
  rw [named, List.filterMap_filter]
  refine List.filterMap_congr fun e _ => ?_
  cases e <;> rfl

theorem constructors_keyed (owner : Name) :
    block.keyed.filterMap (Entry.constructorOf? owner) = [] := by
  refine List.filterMap_eq_nil_iff.2 fun e he => ?_
  have hname := (mem_keyed.1 he).2
  cases e with
  | constructor d => cases hname
  | _ => rfl

theorem Reordered.named (h : block.Reordered block') : Reordered block.named block'.named where
  perm := h.perm.filter _
  constructors owner := by rw [constructors_named, constructors_named, h.constructors]

theorem Reordered.installed (h : block.Reordered block') :
    Reordered block.installed block'.installed where
  perm := h.named.perm.append (h.perm.filter _)
  constructors owner := by
    simp only [Block.installed, List.filterMap_append, constructors_named, constructors_keyed,
      h.constructors]

end Block

theorem findSome?_perm {α β : Type} {f : α → Option β} {as bs : List α} (hperm : as.Perm bs)
    (huniq : ∀ a ∈ as, ∀ b ∈ as, ∀ x y, f a = some x → f b = some y → x = y) :
    as.findSome? f = bs.findSome? f := by
  cases hbs : bs.findSome? f with
  | none =>
    rw [List.findSome?_eq_none_iff] at hbs ⊢
    exact fun a ha => hbs a (hperm.mem_iff.1 ha)
  | some y =>
    obtain ⟨b, hb, hy⟩ := List.exists_of_findSome?_eq_some hbs
    cases has : as.findSome? f with
    | none =>
      rw [List.findSome?_eq_none_iff.1 has b (hperm.mem_iff.2 hb)] at hy
      cases hy
    | some x =>
      obtain ⟨a, ha, hx⟩ := List.exists_of_findSome?_eq_some has
      rw [huniq a ha b (hperm.mem_iff.2 hb) x y hx hy]

namespace Context

variable {ctx ctx' : Context} {block block' : Block} {e : Entry} {x op owner : Name}

theorem Staged.eq_of_claim (hs : ctx.Staged block) {a b : Entry} (ha : a ∈ block)
    (hb : b ∈ block) {c : Claim} (hac : a.claim? = some c) (hbc : b.claim? = some c) : a = b := by
  by_contra hne
  have : Std.Symm fun a b : Entry => ∀ c, b.claim? = some c → a.claim? ≠ some c :=
    ⟨fun _ _ hab c ha hb => hab c hb ha⟩
  exact hs.fresh.2.forall ha hb hne c hbc hac

theorem Staged.stageAll_reordered (hs : ctx.Staged block) (hr : block.Reordered block') :
    ctx.stageAll [] block' = .ok block' := by
  obtain ⟨hfresh, hapart⟩ := hs.fresh
  refine stageAll_eq_ok (fun e he => hfresh e (hr.perm.mem_iff.2 he)) ?_
  exact (hr.perm.pairwise_iff fun hab c ha hb => hab c hb ha).1 hapart

theorem Staged.reordered (hs : ctx.Staged block) (hr : block.Reordered block') :
    ctx.Staged block' :=
  .of_stageAll .nil (hs.stageAll_reordered hr)

section

variable (h : ctx.Filed) (h' : ctx'.Filed) (hentries : Block.Reordered ctx.entries ctx'.entries)

include h h' hentries

theorem Filed.find?_reordered (x : Name) : ctx'.find? x = ctx.find? x :=
  Option.ext fun e => by rw [h.find?_eq_some_iff, h'.find?_eq_some_iff, hentries.perm.mem_iff]

theorem Filed.equation?_reordered (e c : Name) : ctx'.equation? e c = ctx.equation? e c :=
  Option.ext fun d => by
    rw [h.equation?_eq_some_iff, h'.equation?_eq_some_iff, hentries.perm.mem_iff]

theorem Filed.representation?_reordered (typeName : Name) :
    ctx'.representation? typeName = ctx.representation? typeName :=
  Option.ext fun r => by
    rw [h.representation?_eq_some_iff, h'.representation?_eq_some_iff, hentries.perm.mem_iff]

theorem Filed.constructors_reordered (owner : Name) :
    ctx'.constructors owner = ctx.constructors owner := by
  rw [h.constructors_eq, h'.constructors_eq, hentries.constructors]

theorem Filed.mem_operations_reordered :
    op ∈ ctx'.operations owner ↔ op ∈ ctx.operations owner := by
  rw [operations, operations, List.mem_append, List.mem_append,
    h.constructors_reordered h' hentries, h.mem_eliminators,
    h'.mem_eliminators]
  simp only [hentries.perm.mem_iff]

theorem Filed.knownBy_reordered : ctx.KnownBy ctx' where
  find hx := (h.find?_reordered h' hentries _).trans hx
  constructors _ := h.constructors_reordered h' hentries _

theorem Filed.agree_reordered (fuel : Nat) :
    (Evaluator.start ctx fuel).Agree (fun _ => True) (.start ctx' fuel) where
  rules := ⟨fun _ _ => h.equation?_reordered h' hentries _, fun _ => rfl⟩
  covered := Rules.covered_trivial
  limit := rfl
  remaining := rfl

end

section

variable (hf : ctx.Filed) (hs : ctx.Staged block)

include hf hs

theorem index?_opened_of_lt {k : Key} {i : Nat} :
    (ctx.opened block).index? k = some i ∧ i < ctx.size ↔ ctx.index? k = some i := by
  refine ⟨fun ⟨hi, hlt⟩ => ?_, hf.index?_of_append (filed_opened hf hs) (entries_opened ctx block)⟩
  obtain ⟨e, he, hkey⟩ := ((filed_opened hf hs).index?_eq_some_iff k i).1 hi
  rw [entries_opened, List.getElem?_append_left hlt] at he
  exact (hf.index?_eq_some_iff k i).2 ⟨e, he, hkey⟩

theorem permitExtension_opened :
    Barrier.permitExtension (ctx.opened block) op owner ctx.size = .ok () ↔
    ctx.index? (.name owner) = none := by
  rw [Barrier.permitExtension_eq_ok_iff]
  constructor
  · intro hmark
    cases hi : ctx.index? (.name owner) with
    | none => rfl
    | some i =>
      obtain ⟨hopened, hlt⟩ := (index?_opened_of_lt hf hs).2 hi
      exact absurd hlt (Nat.not_lt.2 (hmark i hopened))
  · intro hnone i hi
    by_contra hlt
    have hold : ctx.index? (.name owner) = some i :=
      (index?_opened_of_lt hf hs).1 ⟨hi, Nat.not_le.1 hlt⟩
    cases hnone.symm.trans hold

end

section

variable (hf : ctx.Filed) (hs : ctx.Staged block) (hr : block.Reordered block')

include hr in
theorem entries_opened_reordered :
    Block.Reordered (ctx.opened block).entries (ctx.opened block').entries := by
  rw [entries_opened, entries_opened]
  exact hr.named.append _

include hf hs hr

theorem knownBy_opened_reordered : (ctx.opened block).KnownBy (ctx.opened block') :=
  (filed_opened hf hs).knownBy_reordered (filed_opened hf (hs.reordered hr))
    (entries_opened_reordered hr)

theorem backing?_reordered (typeName : Name) :
    Validation.backing? (ctx.opened block') block' typeName =
      Validation.backing? (ctx.opened block) block typeName := by
  have hold := (filed_opened hf hs).representation?_reordered (filed_opened hf (hs.reordered hr))
    (entries_opened_reordered hr) typeName
  unfold Validation.backing?
  rw [hold, findSome?_perm hr.perm]
  intro a ha b hb r r' har hbr'
  cases a with
  | representation d =>
    cases b with
    | representation d' =>
      simp only [Option.ite_none_right_eq_some, Option.some.injEq] at har hbr'
      obtain ⟨⟨hname, rfl⟩, ⟨hname', rfl⟩⟩ := And.intro har hbr'
      have heq := hs.eq_of_claim ha hb (congrArg (some <| Claim.representation ·) hname)
        (congrArg (some <| Claim.representation ·) hname')
      exact Entry.representation.inj heq
    | _ => cases hbr'
  | _ => cases har

theorem permitExtension_reordered
    (h : Barrier.permitExtension (ctx.opened block) op owner ctx.size = .ok ()) :
    Barrier.permitExtension (ctx.opened block') op owner ctx.size = .ok () :=
  (permitExtension_opened hf (hs.reordered hr)).2 ((permitExtension_opened hf hs).1 h)

end

section

variable (h : ctx.WellFormed) (hs : ctx.Staged block) (hr : block.Reordered block')
  (he : ctx.errors block = [])

include h hs hr he

theorem validateEntry_reordered (hmem : e ∈ block) :
    Validation.validateEntry (ctx.opened block') block' ctx.size e = .ok () := by
  have hvalid := validated he hmem
  have hshaped : (ctx.opened block).Shaped := shaped_opened h.filed hs he h.shaped
  have hknown := knownBy_opened_reordered h.filed hs hr
  cases e with
  | type d => rfl
  | constructor d =>
    obtain ⟨hpermit, params, hd⟩ := Validation.validateConstructor_eq_ok_iff.1 hvalid
    exact Validation.validateConstructor_eq_ok_iff.2
      ⟨permitExtension_reordered h.filed hs hr hpermit, params, hd.mono hknown⟩
  | eliminator d =>
    obtain ⟨hpermit, params, hd⟩ := Validation.validateEliminator_eq_ok_iff.1 hvalid
    exact Validation.validateEliminator_eq_ok_iff.2
      ⟨permitExtension_reordered h.filed hs hr hpermit, params, hd.mono hknown⟩
  | equation d =>
    obtain ⟨e, c, hel, hc, howner, hpermit, hlen, hnodup, hrhs⟩ :=
      Validation.validateEquation_eq_ok_iff.1 hvalid
    exact Validation.validateEquation_eq_ok_iff.2
      ⟨e, c, hknown.eliminator hel, hknown.constructor hc, howner,
      permitExtension_reordered h.filed hs hr hpermit, hlen, hnodup,
        Equation.checkUnder_mono hshaped hknown hel hc hrhs⟩
  | representation d =>
    obtain ⟨i, t, hi, hlt, ht⟩ := Validation.validateRepresentation_eq_ok_iff.1 hvalid
    have hold : ctx.index? (.name d.typeName) = some i :=
      (index?_opened_of_lt h.filed hs).1 ⟨hi, hlt⟩
    obtain ⟨hi', -⟩ := (index?_opened_of_lt h.filed (hs.reordered hr)).2 hold
    exact Validation.validateRepresentation_eq_ok_iff.2 ⟨i, t, hi', hlt, hknown.dataType ht⟩
  | implementation d =>
    obtain ⟨owner, backing, t, howner, hbacking, ht, hbody⟩ :=
      Validation.validateImplementation_eq_ok_iff.1 hvalid
    obtain ⟨r, -, rfl⟩ := Option.map_eq_some_iff.1 hbacking
    refine Validation.validateImplementation_eq_ok_iff.2
      ⟨owner, _, t, owner?_mono hknown howner, ?_, Validation.signatureOnBacking_mono hknown ht,
      Checker.checkUnder_mono hshaped nofun (Validation.written_signatureOnBacking hshaped ht)
        hknown hbody⟩
    exact (backing?_reordered h.filed hs hr owner).trans hbacking

theorem errors_reordered : ctx.errors block' = [] := by
  have hopened := filed_opened h.filed hs
  have hopened' := filed_opened h.filed (hs.reordered hr)
  have hentries : Block.Reordered (ctx.opened block).entries (ctx.opened block').entries :=
    entries_opened_reordered hr
  obtain ⟨-, hcoverage, hcomplete⟩ := Validation.errors_eq_nil_iff.1 he
  refine Validation.errors_eq_nil_iff.2
    ⟨fun e hmem => validateEntry_reordered h hs hr he (hr.perm.mem_iff.2 hmem), ?_, ?_⟩
  · intro d hd c hc
    rw [hopened.constructors_reordered hopened' hentries] at hc
    rw [← hcoverage d (hr.perm.mem_iff.2 hd) c hc]
    exact (hr.perm.countP_eq _).symm
  · intro d hd op hop
    rw [hopened.mem_operations_reordered hopened' hentries] at hop
    obtain ⟨body, hbody⟩ := hcomplete d (hr.perm.mem_iff.2 hd) op hop
    exact ⟨body, hr.perm.mem_iff.1 hbody⟩

theorem entries_commit_reordered :
    Block.Reordered (ctx.commit block).2.entries (ctx.commit block').2.entries := by
  rw [entries_commit he, entries_commit (errors_reordered h hs hr he)]
  exact hr.installed.append _

theorem inferType_commit_reordered {t : Term} {ty : Ty}
    (ht : inferType (ctx.commit block).2 t = .ok ty) :
    inferType (ctx.commit block').2 t = .ok ty :=
  have hcommit := h.commit hs
  have hcommit' := h.commit (hs.reordered hr)
  Checker.inferType_mono hcommit.shaped
    (hcommit.filed.knownBy_reordered hcommit'.filed (entries_commit_reordered h hs hr he)) ht

end

/-- Another order of the declarations makes no difference to what is staged, to whether it goes
in, and to what is said of it afterwards. -/
theorem commit_reordered (hctx : ctx.Reachable) {entries entries' : List Entry} {staged : Block}
    (hstaged : ctx.stageAll [] entries = .ok staged) (hr : Block.Reordered entries entries') :
    ∃ staged', ctx.stageAll [] entries' = .ok staged' ∧
      ((ctx.commit staged).1 = .ok () ↔ (ctx.commit staged').1 = .ok ()) ∧
      ((ctx.commit staged).1 = .ok () →
        (∃ added added', (ctx.commit staged).2.blockEntries = ctx.blockEntries ++ added ∧
          (ctx.commit staged').2.blockEntries = ctx.blockEntries ++ added' ∧
          List.Forall₂ List.Perm added added') ∧
        (∀ t ty, inferType (ctx.commit staged).2 t = .ok ty ↔
          inferType (ctx.commit staged').2 t = .ok ty) ∧
        (∀ t fuel, normalize (ctx.commit staged).2 t fuel =
          normalize (ctx.commit staged').2 t fuel) ∧
        ∀ a b fuel, definitionallyEqual (ctx.commit staged).2 a b fuel =
          definitionallyEqual (ctx.commit staged').2 a b fuel) := by
  obtain rfl : staged = entries := stageAll_eq_append hstaged
  have h : ctx.WellFormed := hctx.wellFormed
  have hs : ctx.Staged staged := .of_stageAll .nil hstaged
  have hs' : ctx.Staged entries' := hs.reordered hr
  refine ⟨entries', hs.stageAll_reordered hr, ?_, fun hok => ?_⟩
  · rw [commit_eq_ok_iff, commit_eq_ok_iff]
    exact ⟨errors_reordered h hs hr, errors_reordered h hs' hr.symm⟩
  have he : ctx.errors staged = [] := commit_eq_ok_iff.1 hok
  have he' : ctx.errors entries' = [] := errors_reordered h hs hr he
  have hagree :=
    (h.commit hs).filed.agree_reordered (h.commit hs').filed (entries_commit_reordered h hs hr he)
  refine ⟨⟨_, _, blockEntries_commit h he, blockEntries_commit h he', ?_⟩, fun t ty =>
    ?_, fun t fuel => ?_, fun a b fuel => ?_⟩
  · by_cases hnil : staged = []
    · subst hnil
      obtain rfl := hr.perm.nil_eq
      exact .nil
    · have hnil' : entries' ≠ [] := fun hnil' => hnil (List.perm_nil.1 (hnil' ▸ hr.perm))
      rw [if_neg hnil, if_neg hnil']
      exact .cons hr.installed.perm .nil
  · exact ⟨inferType_commit_reordered h hs hr he, inferType_commit_reordered h hs' hr.symm he'⟩
  · exact ((hagree fuel).normalize_eq fun _ _ => trivial).symm
  · exact ((hagree fuel).equal_eq (fun _ _ => trivial) fun _ _ => trivial).symm

def booleansUsedFirst : Block := booleans.drop 3 ++ booleans.take 3

theorem booleans_reordered : Block.Reordered booleans booleansUsedFirst where
  perm := by
    rw [booleansUsedFirst]
    nth_rewrite 1 [← List.take_append_drop 3 booleans]
    exact List.perm_append_comm
  constructors _ := rfl

theorem booleansUsedFirst_commit : (empty.commit booleansUsedFirst).1 = .ok () ∧
    ∀ t ty, inferType (empty.commit booleans).2 t = .ok ty ↔
    inferType (empty.commit booleansUsedFirst).2 t = .ok ty := by
  have hstaged : empty.stageAll [] booleans = .ok booleans := rfl
  obtain ⟨staged', hstaged', hiff, hsame⟩ := commit_reordered .empty hstaged booleans_reordered
  have heq := stageAll_eq_append hstaged'
  rw [List.nil_append] at heq
  subst heq
  have hok : (empty.commit booleans).1 = .ok () := rfl
  exact ⟨hiff.1 hok, (hsame hok).2.1⟩

end Context

end ClosedTypes
