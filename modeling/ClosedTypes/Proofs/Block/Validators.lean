import ClosedTypes.Block.Validation
import ClosedTypes.Proofs.Success
/-!
When the validators are content, read off once for each of them.
-/

namespace ClosedTypes

structure Constructor.Shaped (ctx : Context) (d : Constructor) (params : List Name) : Prop where
  written : Checker.checkWritten ctx d.signature = .ok ()
  arity : ∃ t, ctx.dataType d.owner = .ok t ∧ params.length = t.arity.toNat
  result : d.signature.result = .const d.owner (params.map .var)
  nodup : params.Nodup
  fields : ∀ field ∈ d.fields, ∀ x ∈ field.vars, x ∈ params

/-- A case eliminator returns its motive and has a branch for each constructor of its owner. -/
structure Eliminator.CaseShaped (ctx : Context) (d : Eliminator) (params : List Name)
    (motive : Name) : Prop where
  result : d.result = .var motive
  fresh : motive ∉ params
  length : d.rest.length = (ctx.constructors d.owner).length
  branches : ∀ p ∈ d.rest.zip (ctx.constructors d.owner),
    ∃ c, ctx.constructor p.2 = .ok c ∧ p.1 = Validation.branchType c params motive

structure Eliminator.Shaped (ctx : Context) (d : Eliminator) (params : List Name) : Prop where
  written : Checker.checkWritten ctx d.signature = .ok ()
  arity : ∃ t, ctx.dataType d.owner = .ok t ∧ params.length = t.arity.toNat
  scrutinee : d.scrutinee? = some (.const d.owner (params.map .var))
  nodup : params.Nodup
  case : ∀ motive, d.motive = some motive → d.CaseShaped ctx params motive

namespace Validation

theorem distinctVars_eq_some_iff {seen : List Name} {ts : List Ty} {params : List Name} :
    distinctVars seen ts = some params ↔ ts = params.map .var ∧ params.Nodup ∧
    ∀ x ∈ params, x ∉ seen := by
  induction ts generalizing seen params with
  | nil => cases params <;> simp [distinctVars]
  | cons t ts ih =>
    cases t with
    | var x =>
      by_cases hx : x ∈ seen
      · simp only [distinctVars, if_pos hx]
        cases params with
        | nil => simp
        | cons y ys =>
          simp only [reduceCtorEq, List.map_cons, List.cons.injEq, Ty.var.injEq, List.mem_cons,
            forall_eq_or_imp, false_iff, not_and]
          rintro ⟨rfl, _⟩ _ hy
          exact absurd hx hy
      · simp only [distinctVars, if_neg hx, Option.map_eq_map, Option.map_eq_some_iff, ih]
        constructor
        · rintro ⟨ys, ⟨hts, hnd, hys⟩, rfl⟩
          subst hts
          refine ⟨rfl, List.nodup_cons.2 ⟨fun h => hys x h List.mem_cons_self, hnd⟩, fun y hy => ?_⟩
          rcases List.mem_cons.1 hy with rfl | hy
          · exact hx
          · exact fun h => hys y hy (List.mem_cons_of_mem _ h)
        · rintro ⟨hts, hnd, hys⟩
          cases params with
          | nil => cases hts
          | cons y ys =>
            simp only [List.map_cons, List.cons.injEq, Ty.var.injEq] at hts
            obtain ⟨rfl, rfl⟩ := hts
            rw [List.nodup_cons] at hnd
            refine ⟨ys, ⟨rfl, hnd.2, fun y hy h => ?_⟩, rfl⟩
            rcases List.mem_cons.1 h with rfl | h
            · exact hnd.1 hy
            · exact hys y (List.mem_cons_of_mem _ hy) h
    | _ => cases params <;> simp [distinctVars]

theorem parameters_eq_ok_iff {ctx : Context} {declared owner : Name} {t : Ty} {params : List Name} :
    parameters ctx declared owner t = .ok params ↔
      ∃ d, ctx.dataType owner = .ok d ∧ t = .const owner (params.map .var) ∧
      params.length = d.arity.toNat ∧ params.Nodup := by
  unfold parameters
  rw [bind_eq_ok_iff]
  refine exists_congr fun d => and_congr_right fun _ => ?_
  cases t with
  | const c args =>
    simp only [Ty.head?, throw_bind, ite_throw_eq_ok_iff, Ty.const.injEq]
    constructor
    · rintro ⟨hc, ha, hv⟩
      split at hv
      · rename_i ps hd
        obtain ⟨rfl, hnd, _⟩ := distinctVars_eq_some_iff.1 hd
        cases hv
        exact ⟨⟨Decidable.not_not.1 hc, rfl⟩, by simpa using ha, hnd⟩
      · exact absurd hv throw_ne_ok
    · rintro ⟨⟨rfl, rfl⟩, hl, hnd⟩
      have hd : distinctVars [] (params.map .var) = some params :=
        distinctVars_eq_some_iff.2 ⟨rfl, hnd, by simp⟩
      exact ⟨by simp, by simp [hl], by rw [hd]; rfl⟩
  | _ => simp [Ty.head?]

theorem validateFields_eq_ok_iff {d : Constructor} {params : List Name} {fields : List Ty} :
    validateFields d params fields = .ok () ↔ ∀ field ∈ fields, ∀ x ∈ field.vars, x ∈ params := by
  induction fields with
  | nil => simp [validateFields]
  | cons field fields ih =>
    rw [validateFields, List.forall_mem_cons, ← ih]
    cases hf : field.vars.find? (· ∉ params) with
    | none =>
      have hmem : ∀ x ∈ field.vars, x ∈ params := by simpa using hf
      exact (and_iff_right hmem).symm
    | some x =>
      have hmem := List.mem_of_find?_eq_some hf
      have hx := List.find?_some hf
      simp only [reduceCtorEq, false_iff, not_and]
      exact fun h => absurd (h x hmem) (by simpa using hx)

theorem validateConstructor_eq_ok_iff {ctx : Context} {d : Constructor} {mark : Nat} :
    validateConstructor ctx d mark = .ok () ↔
      Barrier.permitExtension ctx d.name d.owner mark = .ok () ∧ ∃ params, d.Shaped ctx params := by
  unfold validateConstructor
  simp only [bind_eq_ok_iff, validateFields_eq_ok_iff, parameters_eq_ok_iff]
  constructor
  · rintro ⟨_, _, _, hp, _, hw, params, ⟨t, ht, hr, hl, hnd⟩, hf⟩
    exact ⟨hp, params, hw, ⟨t, ht, hl⟩, hr, hnd, hf⟩
  · rintro ⟨hp, params, hw, ⟨t, ht, hl⟩, hr, hnd, hf⟩
    exact ⟨t, ht, (), hp, (), hw, params, ⟨t, ht, hr, hl, hnd⟩, hf⟩

theorem validateBranches_eq_ok_iff {ctx : Context} {d : Eliminator} {params : List Name}
    {motive : Name} {i : Nat} {branches : List Ty} {cs : List Name} :
    validateBranches ctx d params motive i branches cs = .ok () ↔
      ∀ p ∈ branches.zip cs, ∃ c, ctx.constructor p.2 = .ok c ∧
      p.1 = branchType c params motive := by
  induction branches generalizing i cs with
  | nil => simp [validateBranches]
  | cons branch branches ih =>
    cases cs with
    | nil => simp [validateBranches]
    | cons c cs =>
      rw [validateBranches, bind_eq_ok_iff, List.zip_cons_cons, List.forall_mem_cons, ← ih]
      constructor
      · rintro ⟨d, hd, h⟩
        by_cases hb : branch = branchType d params motive
        · exact ⟨⟨d, hd, hb⟩, by simpa only [if_pos hb] using h⟩
        · simp only [if_neg hb] at h
          exact absurd h throw_ne_ok
      · rintro ⟨⟨d, hd, hb⟩, h⟩
        exact ⟨d, hd, by rw [if_pos hb]; exact h⟩

theorem validateEliminator_eq_ok_iff {ctx : Context} {d : Eliminator} {mark : Nat} :
    validateEliminator ctx d mark = .ok () ↔
      Barrier.permitExtension ctx d.name d.owner mark = .ok () ∧ ∃ params, d.Shaped ctx params := by
  unfold validateEliminator
  simp only [bind_eq_ok_iff]
  constructor
  · rintro ⟨_, _, _, hp, _, hw, h⟩
    refine ⟨hp, ?_⟩
    cases hs : d.scrutinee? with
    | none => simp [hs] at h
    | some scrutinee =>
      simp only [hs, bind_eq_ok_iff, parameters_eq_ok_iff] at h
      obtain ⟨params, ⟨t, ht, rfl, hl, hnd⟩, h⟩ := h
      refine ⟨params, hw, ⟨t, ht, hl⟩, hs, hnd, fun motive hm => ?_⟩
      simp only [hm, throw_bind, ite_throw_eq_ok_iff, validateBranches_eq_ok_iff, not_or,
        Decidable.not_not] at h
      exact ⟨h.1.1, h.1.2, h.2.1, h.2.2⟩
  · rintro ⟨hp, params, hw, ⟨t, ht, hl⟩, hs, hnd, h⟩
    refine ⟨t, ht, (), hp, (), hw, ?_⟩
    simp only [hs, bind_eq_ok_iff, parameters_eq_ok_iff]
    refine ⟨params, ⟨t, ht, rfl, hl, hnd⟩, ?_⟩
    cases hm : d.motive with
    | none => rfl
    | some motive =>
      obtain ⟨hr, hn, hlen, hb⟩ := h motive hm
      simp only [throw_bind, ite_throw_eq_ok_iff, validateBranches_eq_ok_iff, not_or,
        Decidable.not_not]
      exact ⟨⟨hr, hn⟩, hlen, hb⟩

theorem firstRepeat?_eq_none_iff {seen xs : List Name} :
    firstRepeat? seen xs = none ↔ xs.Nodup ∧ ∀ x ∈ xs, x ∉ seen := by
  induction xs generalizing seen with
  | nil => simp [firstRepeat?]
  | cons x xs ih =>
    rw [firstRepeat?, List.nodup_cons, List.forall_mem_cons]
    by_cases hx : x ∈ seen
    · simp [hx]
    · rw [if_neg hx, ih]
      simp only [List.mem_cons, not_or, hx, not_false_eq_true, true_and]
      constructor
      · rintro ⟨hnd, h⟩
        exact ⟨⟨fun hmem => (h x hmem).1 rfl, hnd⟩, fun y hy => (h y hy).2⟩
      · rintro ⟨⟨hmem, hnd⟩, h⟩
        exact ⟨hnd, fun y hy => ⟨fun e => hmem (e ▸ hy), h y hy⟩⟩

theorem validateEquation_eq_ok_iff {ctx : Context} {d : Equation} {mark : Nat} :
    validateEquation ctx d mark = .ok () ↔
      ∃ e c, ctx.eliminator d.eliminator = .ok e ∧ ctx.constructor d.constructor = .ok c ∧
      c.owner = e.owner ∧
        Barrier.permitExtension ctx d.eliminator e.owner mark = .ok () ∧
        (e.binderTypes c).length = d.binders.length ∧
          d.binders.Nodup ∧ checkUnder ctx (d.binders.zip (e.binderTypes c)) d.rhs e.result =
            .ok () := by
  unfold validateEquation
  simp only [bind_eq_ok_iff, throw_bind, ite_throw_eq_ok_iff, Decidable.not_not]
  constructor
  · rintro ⟨e, he, c, hc, ho, _, hp, hl, h⟩
    cases hr : firstRepeat? [] d.binders with
    | some x => simp [hr] at h
    | none =>
      simp only [hr] at h
      exact ⟨e, c, he, hc, ho, hp, hl, (firstRepeat?_eq_none_iff.1 hr).1, h⟩
  · rintro ⟨e, c, he, hc, ho, hp, hl, hnd, h⟩
    refine ⟨e, he, c, hc, ho, (), hp, hl, ?_⟩
    rw [firstRepeat?_eq_none_iff.2 ⟨hnd, by simp⟩]
    exact h

theorem validateRepresentation_eq_ok_iff {ctx : Context} {d : Representation} {mark : Nat} :
    validateRepresentation ctx d mark = .ok () ↔
      ∃ i t, ctx.position? d.typeName = some i ∧ i < mark ∧ ctx.dataType d.typeName = .ok t := by
  unfold validateRepresentation
  cases ctx.position? d.typeName with
  | none => simp
  | some i =>
    by_cases hi : i < mark <;> simp [hi]

theorem validateImplementation_eq_ok_iff {ctx : Context} {staged : List Entry}
    {d : Implementation} :
    validateImplementation ctx staged d = .ok () ↔
      ∃ owner backing signature, ctx.owner? d.op = some owner ∧
      backing? ctx staged owner = some backing ∧
        signatureOnBacking ctx d.op backing = .ok signature ∧
        checkUnder ctx [] d.body signature = .ok () := by
  unfold validateImplementation
  cases ctx.owner? d.op with
  | none => simp
  | some owner =>
    cases hb : backing? ctx staged owner with
    | none => simp [hb]
    | some backing => simp [hb]

theorem coverageErrors_eq_nil_iff {ctx : Context} {staged : List Entry} {d : Eliminator} :
    coverageErrors ctx staged (.eliminator d) = [] ↔
    ∀ c ∈ ctx.constructors d.owner, equationCount staged d.name c = 1 := by
  simp only [coverageErrors, List.append_eq_nil_iff, List.map_eq_nil_iff, List.filter_eq_nil_iff,
    decide_eq_true_eq, Nat.not_lt, ite_eq_left_iff, reduceCtorEq, imp_false, Decidable.not_not,
      List.isEmpty_iff]
  constructor
  · rintro ⟨hle, hne⟩ c hc
    have := hle c hc
    have := hne c hc
    omega
  · exact fun h => ⟨fun c hc => Nat.le_of_eq (h c hc), fun c hc => by rw [h c hc]; decide⟩

theorem completenessErrors_eq_nil_iff {ctx : Context} {staged : List Entry} {d : Representation} :
    completenessErrors ctx staged (.representation d) = [] ↔
      ∀ op ∈ ctx.operations d.typeName, ∃ body, Entry.implementation ⟨op, body⟩ ∈ staged := by
  have himp {op : Name} : staged.any (implements op) = true ↔
      ∃ body, Entry.implementation ⟨op, body⟩ ∈ staged := by
    rw [List.any_eq_true]
    constructor
    · rintro ⟨e, he, h⟩
      cases e with
      | implementation i =>
        obtain ⟨op', body⟩ := i
        simp only [implements, decide_eq_true_eq] at h
        exact ⟨body, h ▸ he⟩
      | _ => simp [implements] at h
    · rintro ⟨body, h⟩
      exact ⟨_, h, by simp [implements]⟩
  simp only [completenessErrors, ite_eq_left_iff, reduceCtorEq, imp_false, Classical.not_not,
    List.isEmpty_iff, List.filter_eq_nil_iff, Bool.not_eq_true', Bool.not_eq_false, himp]

theorem errors_eq_nil_iff {ctx : Context} {staged : List Entry} {mark : Nat} :
    errors ctx staged mark = [] ↔
      (∀ e ∈ staged, validateEntry ctx staged mark e = .ok ()) ∧
        (∀ d, .eliminator d ∈ staged → ∀ c ∈ ctx.constructors d.owner, equationCount staged
          d.name c = 1) ∧
          ∀ d, .representation d ∈ staged → ∀ op ∈ ctx.operations d.typeName, ∃ body,
          .implementation ⟨op, body⟩ ∈ staged := by
  unfold errors
  rw [List.append_eq_nil_iff, List.append_eq_nil_iff, List.filterMap_eq_nil_iff,
    List.flatMap_eq_nil_iff, List.flatMap_eq_nil_iff, and_assoc]
  refine and_congr (forall₂_congr fun e _ => ?_) (and_congr ?_ ?_)
  · cases validateEntry ctx staged mark e <;> simp
  · constructor
    · exact fun h d hd => coverageErrors_eq_nil_iff.1 (h _ hd)
    · intro h e he
      cases e with
      | eliminator d => exact coverageErrors_eq_nil_iff.2 (h d he)
      | _ => rfl
  · constructor
    · exact fun h d hd => completenessErrors_eq_nil_iff.1 (h _ hd)
    · intro h e he
      cases e with
      | representation d => exact completenessErrors_eq_nil_iff.2 (h d he)
      | _ => rfl

end Validation

end ClosedTypes
