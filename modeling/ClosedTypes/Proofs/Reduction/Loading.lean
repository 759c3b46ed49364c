import ClosedTypes.Proofs.Reduction.Lockstep
import ClosedTypes.Proofs.Reduction.NormalForm
/-!
Rules with the implementations of a type loaded. An implemented eliminator goes by its
implementation alone, so that its equations might as well not be there.
-/

namespace ClosedTypes.Rules

variable {known : Use → Prop} {rules : Rules} {ctx : Context} {typeName op e c : Name}
  {typeNames : List Name}
  {body t u w : Term} {d : Equation} {n k : Nat}

theorem implementation?_load (rules : Rules) (typeName op : Name) :
    (rules.load typeName).implementation? op =
    if op ∈ rules.context.operations typeName then
      ((rules.context.implementation? op).map (·.body)).or (rules.implementation? op)
    else rules.implementation? op := by
  have all {f : Index Name Term → Name → Index Name Term}
      (hf : ∀ m op', (f m op').find? op =
        if op = op' then
          ((rules.context.implementation? op).map (·.body)).or (m.find? op)
        else
          m.find? op)
      (ops : List Name) (m : Index Name Term) : (ops.foldl f m).find? op =
        if op ∈ ops then
          ((rules.context.implementation? op).map (·.body)).or (m.find? op)
        else
          m.find? op := by
    induction ops generalizing m with
    | nil => simp
    | cons op' ops ih =>
      rw [List.foldl_cons, ih, hf]
      by_cases hop : op = op'
      · subst hop
        cases rules.context.implementation? op <;> simp
      · simp [hop]
  refine all (fun m op' => ?_) _ _
  split
  · rename_i d hd
    rw [Index.find?_insert]
    by_cases hop : op = op'
    · subst hop
      simp [hd]
    · rw [if_neg hop, if_neg (Ne.symm hop)]
  · rename_i hd
    by_cases hop : op = op'
    · subst hop
      simp [hd]
    · rw [if_neg hop]

/-- The rules with the committed implementations of several types. -/
def loadAll (rules : Rules) (typeNames : List Name) : Rules := typeNames.foldl load rules

theorem context_loadAll (rules : Rules) (typeNames : List Name) :
    (rules.loadAll typeNames).context = rules.context := by
  unfold loadAll
  induction typeNames generalizing rules with
  | nil => rfl
  | cons typeName typeNames ih => exact ih (rules.load typeName)

theorem implementation?_loadAll (rules : Rules) (typeNames : List Name) (op : Name) :
    (rules.loadAll typeNames).implementation? op =
      if ∃ typeName ∈ typeNames, op ∈ rules.context.operations typeName then
        ((rules.context.implementation? op).map (·.body)).or (rules.implementation? op)
      else rules.implementation? op := by
  unfold loadAll
  induction typeNames generalizing rules with
  | nil => simp
  | cons typeName typeNames ih =>
    have hctx : (rules.load typeName).context = rules.context := rfl
    simp only [List.foldl_cons, ih, implementation?_load, hctx, List.exists_mem_cons_iff]
    cases rules.context.implementation? op <;>
      by_cases h : op ∈ rules.context.operations typeName <;> simp [h]

theorem implementation?_loadAll_ofContext :
    ((ofContext ctx).loadAll typeNames).implementation? op = some body ↔
    ∃ typeName ∈ typeNames, op ∈ ctx.operations typeName ∧ ∃ d, ctx.implementation? op = some d ∧
    d.body = body := by
  rw [implementation?_loadAll]
  show (if ∃ typeName ∈ typeNames, op ∈ ctx.operations typeName then
    ((ctx.implementation? op).map (·.body)).or none else none) = some body ↔ _
  by_cases h : ∃ typeName ∈ typeNames, op ∈ ctx.operations typeName
  · rw [if_pos h, Option.or_none, Option.map_eq_some_iff]
    obtain ⟨typeName, hloaded, hop⟩ := h
    exact ⟨fun hd => ⟨typeName, hloaded, hop, hd⟩, fun ⟨_, _, _, hd⟩ => hd⟩
  · rw [if_neg h]
    exact iff_of_false nofun fun ⟨typeName, hloaded, hop, _⟩ => h ⟨typeName, hloaded, hop⟩

theorem equation?_inForce : rules.inForce.context.equation? e c = some d ↔
    rules.implementation? e = none ∧ rules.context.equation? e c = some d := by
  have hfind : rules.inForce.context.equations.find? (e, c) =
      if (rules.implementation? e).isNone then rules.context.equations.find? (e, c) else none :=
    Index.find?_filter_key rules.context.equations
      (fun key : Name × Name => (rules.implementation? key.1).isNone) (e, c)
  unfold Context.equation?
  rw [hfind]
  cases rules.implementation? e <;> simp [inForce]

theorem equation?_inForce_loadAll :
    (rules.loadAll typeNames).inForce.context.equation? e c = some d ↔
    (rules.loadAll typeNames).implementation? e = none ∧ rules.context.equation? e c = some d := by
  rw [equation?_inForce, context_loadAll]

theorem agree_inForce : Agree known rules rules.inForce where
  equations _ himpl c := Option.ext fun d => by rw [equation?_inForce, and_iff_right himpl]
  implementations _ := rfl

theorem Over.inForce (h : rules.Over known) : rules.inForce.Over known where
  equations he hd := h.equations he (equation?_inForce.1 hd).2
  implementations hbody := h.implementations hbody

theorem Exposed.of_inForce (h : rules.inForce.Exposed t) : rules.Exposed t := by
  cases h with
  | beta => exact .beta
  | projection hi => exact .projection hi
  | branch => exact .branch
  | equation he hd => exact .equation he (equation?_inForce.1 hd).2

theorem runs_inForce (h : rules.Over known) (ht : t.Over known)
    (hw : (rules.whnf n t).1 = some (w, k)) : rules.inForce.Runs t w :=
  runs_of_whnf ((agree_inForce.whnf_eq h ht).trans hw)

theorem normalizes_inForce (h : rules.Over known) (ht : t.Over known)
    (hu : (rules.normalize n t).1 = some (u, k)) :
    rules.inForce.Normalizes t u :=
  normalizes_of_normalize ((agree_inForce.normalize_eq h ht).trans hu)

def Unimplemented (rules : Rules) : Use → Prop
  | .constructor c _ => rules.implementation? c = none
  | .eliminator e _ => rules.implementation? e = none

/-- An operation that has an implementation goes to it, wherever it turns up. -/
theorem Normalizes.over_unimplemented (h : rules.Normalizes t u) : u.Over rules.Unimplemented := by
  induction h with
  | step _ _ ih => exact ih
  | var => exact Term.over_var
  | lit => exact Term.over_lit
  | lam _ ih => exact Term.over_lam.2 ih
  | app _ _ ihf iha => exact Term.over_app.2 ⟨ihf, iha⟩
  | ctor hc hlen _ ih => exact Term.over_ctor.2 ⟨hc, forall_of_forall_zip hlen ih⟩
  | elim he _ hlen _ ihs ih => exact Term.over_elim.2 ⟨he, ihs, forall_of_forall_zip hlen ih⟩
  | tuple hlen _ ih => exact Term.over_tuple.2 (forall_of_forall_zip hlen ih)
  | proj _ ih => exact Term.over_proj.2 ih
  | prim hlen _ _ ih => exact Term.over_prim.2 (forall_of_forall_zip hlen ih)
  | fold _ _ _ _ _ ih => exact ih

end ClosedTypes.Rules
