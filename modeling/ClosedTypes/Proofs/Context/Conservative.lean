import ClosedTypes.Proofs.Context.Reachable
import ClosedTypes.Proofs.Faithfulness
import ClosedTypes.Proofs.Reduction.Loading
/-!
A commit is conservative: terms that had a type before keep it and evaluate as they did, and the
types that were represented before are as faithful as they were.
-/

namespace ClosedTypes

namespace Context

variable {ctx ctx' : Context} {block : Block} {typeName : Name}

theorem WellFormed.over_loadAll {known : Use → Prop} (h : ctx.WellFormed)
    (hadmits : ∀ use, ctx.Admits use → known use)
    (typeNames : List Name) : ((Rules.ofContext ctx).loadAll typeNames).Over known where
  equations _ hd := by
    rw [Rules.context_loadAll] at hd
    obtain ⟨e, c, hd⟩ := h.equations _ (h.filed.equation?_eq_some_iff.1 hd).1
    exact (Checker.inScope_of_checkUnder h.shaped hd.rhs).uses.mono hadmits
  implementations hbody := by
    obtain ⟨_, -, -, d, hd, rfl⟩ := Rules.implementation?_loadAll_ofContext.1 hbody
    obtain ⟨owner, r, signature, hd⟩ :=
      h.implementations d (h.filed.implementation?_eq_some_iff.1 hd).1
    exact (Checker.inScope_of_checkUnder h.shaped hd.body).uses.mono hadmits

theorem WellFormed.over_ofContext (h : ctx.WellFormed) : (Rules.ofContext ctx).Over ctx.Admits :=
  h.over_loadAll (fun _ => id) []

theorem WellFormed.over_load (h : ctx.WellFormed) (typeName : Name) :
    ((Rules.ofContext ctx).load typeName).Over ctx.Admits :=
  h.over_loadAll (fun _ => id) [typeName]

section

variable (h : ctx.WellFormed) (hs : ctx.Staged block) (he : ctx.errors block = [])

include h hs he

theorem extendedBy_of_commit : ctx.ExtendedBy (ctx.commit block).2 :=
  (extendedBy_opened h.filed hs he).trans (extendedBy_commit h hs he)

theorem equation?_commit {e : Name} {n : Nat} (hknown : ctx.Admits (.eliminator e n)) (c : Name) :
    (ctx.commit block).2.equation? e c = ctx.equation? e c := by
  refine Option.ext fun d => ?_
  rw [(h.commit hs).filed.equation?_eq_some_iff, h.filed.equation?_eq_some_iff,
    mem_entries_commit he]
  refine and_congr_left fun ⟨hname, _⟩ => or_iff_left fun hmem => ?_
  obtain ⟨d', hd', -⟩ := hknown
  exact (eliminator_of_equation h.filed hs he h.shaped hmem).2 d' (hname ▸ hd')

theorem agree_ofContext_commit :
    Rules.Agree ctx.Admits (.ofContext ctx) (.ofContext (ctx.commit block).2) where
  equations hknown _ := equation?_commit h hs he hknown
  implementations _ := rfl

theorem implementation?_commit {op : Name} {d : Implementation}
    (hd : ctx.implementation? op = some d) :
    (ctx.commit block).2.implementation? op = some d := by
  rw [(h.commit hs).filed.implementation?_eq_some_iff, mem_entries_commit he]
  exact (h.filed.implementation?_eq_some_iff.1 hd).imp_left .inl

theorem representation?_commit {r : Representation} (hr : ctx.representation? typeName = some r) :
    (ctx.commit block).2.representation? typeName = some r := by
  rw [(h.commit hs).filed.representation?_eq_some_iff, mem_entries_commit he]
  exact (h.filed.representation?_eq_some_iff.1 hr).imp_left .inl

omit hs he in
theorem exists_of_mem_goals {backing : Ty} {goals : List Faithfulness.Goal}
    (hgoals : Faithfulness.goals ctx typeName backing = .ok goals) {goal : Faithfulness.Goal}
    (hmem : goal ∈ goals) :
    ∃ elim ctor d, ctx.eliminator goal.eliminator = .ok elim ∧
    ctx.constructor goal.constructor = .ok ctor ∧
      ctx.equation? goal.eliminator goal.constructor = some d ∧
      goal = .ofEquation typeName backing d ctor.fields.length (elim.binderTypes ctor) := by
  obtain ⟨e, -, gs, hgs, hmem⟩ := exists_of_mem_flatMapM hgoals hmem
  obtain ⟨elim, helim, hgs⟩ := bind_eq_ok_iff.1 hgs
  obtain ⟨c, -, hgoal⟩ := exists_of_mem_mapM hgs hmem
  obtain ⟨ctor, hctor, hgoal⟩ := bind_eq_ok_iff.1 hgoal
  cases hd : ctx.equation? e c with
  | none =>
    simp only [hd] at hgoal
    cases hgoal
  | some d =>
    simp only [hd] at hgoal
    cases hgoal
    obtain ⟨-, rfl, rfl⟩ := h.filed.equation?_eq_some_iff.1 hd
    exact ⟨elim, ctor, d, helim, hctor, hd, rfl⟩

omit hs he in
theorem over_of_mem_goals {backing : Ty} {goals : List Faithfulness.Goal}
    (hgoals : Faithfulness.goals ctx typeName backing = .ok goals)
    {goal : Faithfulness.Goal} (hmem : goal ∈ goals) : goal.Over ctx.Admits := by
  obtain ⟨elim, ctor, d, helim, hctor, hd, heq⟩ := exists_of_mem_goals h hgoals hmem
  obtain ⟨elim', ctor', helim', hctor', hchecked⟩ := h.checked_of_equation? hd
  cases helim.symm.trans helim'
  cases hctor.symm.trans hctor'
  have hlen := hchecked.length
  have hvars (vars : List Name) : ∀ t ∈ vars.map Term.var, t.Over ctx.Admits :=
    List.forall_mem_map.2 fun _ _ => Term.over_var
  rw [heq] at helim hctor hd ⊢
  refine ⟨Term.over_elim.2 ⟨⟨elim, helim, ?_⟩, Term.over_ctor.2 ⟨⟨ctor, hctor, ?_⟩, fun t ht => ?_⟩,
    fun t ht => ?_⟩, h.over_ofContext.equations ⟨elim, helim, rfl⟩ hd⟩
  · simp [hlen]
  · simp [hlen]
  · exact hvars _ t (List.mem_of_mem_take ht)
  · exact hvars _ t (List.mem_of_mem_drop ht)

section

variable {r : Representation} (hr : ctx.representation? typeName = some r)

include hr

omit hs he in
theorem complete_of_representation? : r.Complete ctx ∧ r.typeName = typeName := by
  obtain ⟨hmem, hname⟩ := h.filed.representation?_eq_some_iff.1 hr
  exact ⟨h.representations r hmem, hname⟩

theorem load_commit : ((Rules.ofContext (ctx.commit block).2).load typeName).implementations =
    ((Rules.ofContext ctx).load typeName).implementations := by
  obtain ⟨⟨⟨t, ht⟩, himpl⟩, rfl⟩ := complete_of_representation? h hr
  have hext := extendedBy_of_commit h hs he
  have hops : (ctx.commit block).2.operations r.typeName = ctx.operations r.typeName := by
    rw [operations, operations, hext.constructors ht, hext.eliminators ht]
  show ((ctx.commit block).2.operations r.typeName).foldl _ _ =
    (ctx.operations r.typeName).foldl _ _
  rw [hops]
  refine List.foldl_ext _ _ _ fun m op hop => ?_
  obtain ⟨body, hbody⟩ := himpl op hop
  have hd : ctx.implementation? op = some ⟨op, body⟩ :=
    h.filed.implementation?_eq_some_iff.2 ⟨hbody, rfl⟩
  simp only [Rules.ofContext, hd, implementation?_commit h hs he hd]

theorem goals_commit (backing : Ty) :
    Faithfulness.goals (ctx.commit block).2 typeName backing =
      Faithfulness.goals ctx typeName backing := by
  obtain ⟨⟨⟨t, ht⟩, -⟩, rfl⟩ := complete_of_representation? h hr
  have hext := extendedBy_of_commit h hs he
  unfold Faithfulness.goals
  rw [hext.constructors ht, hext.eliminators ht]
  refine flatMapM_congr fun e hmem => ?_
  obtain ⟨d, hd, -, hname⟩ := h.filed.mem_eliminators.1 hmem
  have hel : ctx.eliminator e = .ok d := h.filed.eliminator_eq_ok_iff.2 ⟨hd, hname⟩
  rw [hel, hext.eliminator hel]
  refine mapM_congr fun c hmem => ?_
  obtain ⟨d', hd', -, hname'⟩ := h.filed.mem_constructors.1 hmem
  have hctor : ctx.constructor c = .ok d' := h.filed.constructor_eq_ok_iff.2 ⟨hd', hname'⟩
  rw [hctor, hext.constructor hctor, equation?_commit h hs he ⟨d, hel, rfl⟩]

theorem faithfulness_commit (limits : Limits) (mode : Faithfulness.Mode) (samples : List Literal) :
    faithfulness (ctx.commit block).2 limits typeName mode samples =
      faithfulness ctx limits typeName mode samples := by
  have hagree : Evaluator.Agree ctx.Admits ((Evaluator.start ctx limits.fuel).load typeName)
      ((Evaluator.start (ctx.commit block).2 limits.fuel).load typeName) :=
    { rules := ⟨fun hknown _ => equation?_commit h hs he hknown, fun op =>
      congrArg (·.find? op) (load_commit h hs he hr)⟩
      covered := h.over_load typeName
      limit := rfl
      remaining := rfl }
  obtain ⟨⟨⟨t, ht⟩, -⟩, hname⟩ := complete_of_representation? h hr
  rw [hname] at ht
  have hdecl : ctx.declaresType typeName = true := declaresType_eq_true_iff.2 ⟨t, ht⟩
  have hdecl' : (ctx.commit block).2.declaresType typeName = true :=
    declaresType_eq_true_iff.2 ⟨t, (extendedBy_of_commit h hs he).dataType ht⟩
  unfold faithfulness
  simp only [hdecl, hdecl', hr, representation?_commit h hs he hr, goals_commit h hs he hr]
  refine bind_congr_ok fun goals hgoals => ?_
  refine congrArg (fun findings : Except Error (List Faithfulness.Finding) => findings >>= _)
    (mapM_congr fun goal hmem => ?_)
  rw [Faithfulness.Goal.check_eq hagree (over_of_mem_goals h hgoals hmem) mode]

end

end

theorem commit_eq_ok_iff : (ctx.commit block).1 = .ok () ↔ ctx.errors block = [] := by
  by_cases h : ctx.errors block = []
  · rw [commit_of_errors_eq_nil h]
    exact iff_of_true rfl h
  · rw [commit_of_errors_ne_nil h]
    exact iff_of_false nofun h

/-- What the context said of its own terms and of the types it represents, it says after the
commit. -/
theorem answers_of_commit (hr : ctx.Reachable) (hs : ctx.Staged block)
    (hok : (ctx.commit block).1 = .ok ()) :
    (∀ t ty, inferType ctx t = .ok ty → inferType (ctx.commit block).2 t = .ok ty ∧
      ∀ fuel, normalize (ctx.commit block).2 t fuel = normalize ctx t fuel) ∧
    (∀ a b tya tyb, inferType ctx a = .ok tya → inferType ctx b = .ok tyb →
      ∀ fuel, definitionallyEqual (ctx.commit block).2 a b fuel =
        definitionallyEqual ctx a b fuel) ∧
    ∀ typeName r, ctx.representation? typeName = some r →
      ∀ limits mode samples, faithfulness (ctx.commit block).2 limits typeName mode samples =
        faithfulness ctx limits typeName mode samples := by
  have h : ctx.WellFormed := hr.wellFormed
  have he : ctx.errors block = [] := commit_eq_ok_iff.1 hok
  have hagree (fuel : Nat) : (Evaluator.start ctx fuel).Agree ctx.Admits
      (.start (ctx.commit block).2 fuel) :=
    ⟨agree_ofContext_commit h hs he, h.over_ofContext, rfl, rfl⟩
  have hover {t : Term} {ty : Ty} (ht : inferType ctx t = .ok ty) : t.Over ctx.Admits :=
    (Checker.inScope_of_inferType h.shaped ht).uses
  refine ⟨fun t ty ht => ⟨?_, fun fuel => ?_⟩, fun a b _ _ ha hb fuel => ?_, fun typeName r =>
    faithfulness_commit h hs he⟩
  · exact Checker.inferType_mono h.shaped (extendedBy_of_commit h hs he).toKnownBy ht
  · exact (hagree fuel).normalize_eq (hover ht)
  · exact (hagree fuel).equal_eq (hover ha) (hover hb)

def backedBooleans : Block := [
  .representation ⟨"Bool", .bool⟩,
  .implementation ⟨"True", .bool true⟩,
  .implementation ⟨"False", .bool false⟩,
  .implementation ⟨"Not", .lam "x" none (.prim .not [.var "x"])⟩]

def withBooleans : Context := ((empty.commit booleans).2.commit backedBooleans).2

theorem withBooleans_reachable : withBooleans.Reachable :=
  .commit (.commit .empty booleans_staged)
    (.of_stageAll .nil (show (empty.commit booleans).2.stageAll [] backedBooleans =
      .ok backedBooleans from rfl))

def numbers : Block := unfinished ++ [.equation ⟨"IsZero", "Zero", [], .ctor "True" []⟩]

theorem numbers_staged : withBooleans.Staged numbers :=
  .of_stageAll .nil (show withBooleans.stageAll [] numbers = .ok numbers from rfl)

theorem numbers_keep_booleans :
    (withBooleans.commit numbers).2.size = 14 ∧
      inferType (withBooleans.commit numbers).2 (.elim "Not" (.ctor "True" []) []) =
        .ok (.const "Bool" []) ∧
      ∀ limits mode samples, faithfulness (withBooleans.commit numbers).2 limits "Bool"
        mode samples =
        faithfulness withBooleans limits "Bool" mode samples := by
  obtain ⟨hterms, -, htypes⟩ := answers_of_commit withBooleans_reachable numbers_staged rfl
  exact ⟨rfl, (hterms _ _ rfl).1, htypes "Bool" ⟨"Bool", .bool⟩ rfl⟩

end Context

end ClosedTypes
