import ClosedTypes.Proofs.Context.Fitting
import ClosedTypes.Proofs.Faithfulness.Verdicts
import ClosedTypes.Proofs.Reduction.Reducts
/-!
Instances of goals that were proved. What has equal normal forms on symbolic values has equal normal
forms on literals, if reduction of the instances ends and evaluation leaves no redex behind; so
samples do not refute what was proved.
-/

namespace ClosedTypes

namespace Rules

variable {known : Use → Prop} {rules : Rules} {t s u v : Term} {xs : List Name}
  {m : Index Name Term}

theorem skeleton_subst_empty (t : Term) : (t.subst (.ofList [])).skeleton xs = t.skeleton xs := by
  have hlocating : Term.replacing xs (.ofList []) = Term.locating xs :=
    funext fun v => by cases v <;> rfl
  rw [Term.skeleton_subst, hlocating, ← Term.skeleton_eq_locating]

theorem joins_subst (hrules : rules.Closed)
    (hu : Skeleton.Reaches rules (t.skeleton []) (u.skeleton []))
    (hv : Skeleton.Reaches rules (s.skeleton []) (v.skeleton []))
    (halpha : u.alpha v = true) (m : Index Name Term) (xs : List Name) :
    Skeleton.Joins rules ((t.subst m).skeleton xs) ((s.subst m).skeleton xs) := by
  rw [Term.skeleton_subst, Term.skeleton_subst]
  refine ⟨((u.skeleton []).replace (Term.replacing xs m)).computed,
    Skeleton.reaches_computed.trans (hu.computed hrules _), ?_⟩
  rw [Term.skeleton_inj.2 halpha]
  exact Skeleton.reaches_computed.trans (hv.computed hrules _)

end Rules

namespace Faithfulness.Goal

variable {goal : Goal} {r : Evaluator} {bindings : List (Name × Term)} {limit : Nat}
  {samples : List Literal} {u v : Term}

/-- Reduction of both sides of an instance ends. -/
structure Terminates (goal : Goal) (rules : Rules) (bindings : List (Name × Term)) : Prop where
  lhs : rules.Terminates (goal.lhs.subst (.ofList bindings))
  rhs : rules.Terminates (goal.rhs.subst (.ofList bindings))

theorem sides_eq_ok_iff : goal.sides r bindings = .ok (u, v) ↔
    (r.normalize (goal.lhs.subst (.ofList bindings))).1 = .ok u ∧
    (r.normalize (goal.rhs.subst (.ofList bindings))).1 = .ok v := by
  simp [sides]

theorem onSamples_ne_proved : goal.onSamples r limit samples ≠ .ok .proved := by
  unfold onSamples
  split <;> simp

theorem exists_of_symbolic_eq_proved (h : goal.symbolic r limit samples = .ok .proved) :
    ∃ u v, goal.sides r [] = .ok (u, v) ∧ u.alpha v = true := by
  unfold symbolic at h
  obtain ⟨⟨u, v⟩, hsides, h⟩ := bind_eq_ok_iff.1 h
  refine ⟨u, v, hsides, ?_⟩
  by_contra halpha
  simp only [halpha] at h
  simp [onSamples_ne_proved] at h

end Faithfulness.Goal

namespace Context

open Faithfulness

variable {ctx : Context} {typeName : Name} {d : Representation} {limits : Limits}
  {samples : List Literal} {mode : Mode}
  {gs : List Goal} {goal goal' : Goal}

section

variable (h : ctx.WellFormed) (hr : ctx.representation? typeName = some d)

include h hr

theorem faithfulness_eq (hgoals : goals ctx typeName d.backing.toTy = .ok gs) :
    faithfulness ctx limits typeName mode samples =
    (gs.mapM fun goal => do
      let verdict ← goal.check ((Evaluator.start ctx limits.fuel).load typeName) limits.sampleCases
        samples mode
      return { eliminator := goal.eliminator, constructor := goal.constructor, verdict }) >>=
        fun findings => .ok { typeName, mode, findings } := by
  obtain ⟨⟨⟨t, ht⟩, -⟩, hname⟩ := complete_of_representation? h hr
  have hdecl : ctx.declaresType typeName = true := declaresType_eq_true_iff.2 ⟨t, hname ▸ ht⟩
  unfold faithfulness
  simp only [hdecl, hr, hgoals]
  rfl

omit hr in
theorem eq_of_mem_goals {backing : Ty} (hgoals : goals ctx typeName backing = .ok gs)
    (hmem : goal ∈ gs) (hmem' : goal' ∈ gs)
    (he : goal.eliminator = goal'.eliminator) (hc : goal.constructor = goal'.constructor) :
    goal = goal' := by
  obtain ⟨elim, ctor, d, helim, hctor, hd, heq⟩ := exists_of_mem_goals h hgoals hmem
  obtain ⟨elim', ctor', d', helim', hctor', hd', heq'⟩ := exists_of_mem_goals h hgoals hmem'
  rw [he] at helim hd
  rw [hc] at hctor hd
  cases helim.symm.trans helim'
  cases hctor.symm.trans hctor'
  cases hd.symm.trans hd'
  exact heq.trans heq'.symm

omit hr in
theorem normalizes_load {n : Nat} {t w : Term} (ht : t.Over ctx.Admits)
    (hw : (((Evaluator.start ctx n).load typeName).normalize t).1 = .ok w) :
    ((Rules.ofContext ctx).load typeName).inForce.Normalizes t w := by
  obtain ⟨k, hk⟩ := Evaluator.fst_ask_eq_ok_iff.1 hw
  exact Rules.normalizes_inForce (h.over_load typeName) ht hk

variable (hgoals : goals ctx typeName d.backing.toTy = .ok gs) (hmem : goal ∈ gs)

include hgoals hmem

theorem check_of_mem_findings {report : Report} {verdict : Verdict}
    (hreport : faithfulness ctx limits typeName mode samples = .ok report)
    (hfinding : ⟨goal.eliminator, goal.constructor, verdict⟩ ∈ report.findings) :
    goal.check ((Evaluator.start ctx limits.fuel).load typeName) limits.sampleCases samples mode =
      .ok verdict := by
  rw [faithfulness_eq h hr hgoals] at hreport
  obtain ⟨findings, hfindings, hreport⟩ := bind_eq_ok_iff.1 hreport
  cases hreport
  obtain ⟨goal', hmem', hfinding⟩ := exists_of_mem_mapM hfindings hfinding
  obtain ⟨verdict', hcheck, hfinding⟩ := bind_eq_ok_iff.1 hfinding
  obtain ⟨he, hc, rfl⟩ := Finding.mk.inj (pure_eq_ok_iff.1 hfinding)
  obtain rfl := eq_of_mem_goals h hgoals hmem' hmem he hc
  exact hcheck

theorem refutedBy_of_unfaithful {cex : Counterexample}
    (herror : faithfulness ctx limits typeName .sampling samples = .error (goal.unfaithful cex)) :
    goal.RefutedBy ((Evaluator.start ctx limits.fuel).load typeName) samples .sampling cex := by
  rw [faithfulness_eq h hr hgoals] at herror
  rcases bind_eq_error_iff.1 herror with herror | ⟨findings, -, herror⟩
  · obtain ⟨before, goal', after, heq, hcheck, -⟩ := exists_split_of_mapM_eq_error herror
    have hmem' : goal' ∈ gs := heq ▸ List.mem_append_right before List.mem_cons_self
    rcases bind_eq_error_iff.1 hcheck with hcheck | ⟨verdict, -, hcheck⟩
    · rcases Goal.error_of_check hcheck with h' | h' | ⟨cex', h', hrefuted⟩
      · cases h'
      · cases h'
      · obtain ⟨-, he, hc, rfl⟩ := Error.unfaithful.inj h'
        obtain rfl := eq_of_mem_goals h hgoals hmem' hmem he.symm hc.symm
        exact hrefuted
    · cases hcheck
  · cases herror

omit hr in
theorem joins_instance {fuel : Nat} {u v : Term}
    (hsides : goal.sides ((Evaluator.start ctx fuel).load typeName) [] = .ok (u, v))
    (halpha : u.alpha v = true) (m : Index Name Term) (xs : List Name) :
    Skeleton.Joins ((Rules.ofContext ctx).load typeName).inForce
      ((goal.lhs.subst m).skeleton xs) ((goal.rhs.subst m).skeleton xs) := by
  have hfit := h.fitting_load typeName
  have hover := over_of_mem_goals h hgoals hmem
  have hclosed {t : Term} (ht : t.Over ctx.Admits) : (t.subst (.ofList [])).Over ctx.Admits :=
    ht.subst_ofList (List.forall_mem_nil _)
  obtain ⟨hu, hv⟩ := Goal.sides_eq_ok_iff.1 hsides
  have hlhs :=
    (normalizes_load h (hclosed hover.lhs) hu).reaches.skeleton hfit (hclosed hover.lhs) []
  have hrhs :=
    (normalizes_load h (hclosed hover.rhs) hv).reaches.skeleton hfit (hclosed hover.rhs) []
  rw [Rules.skeleton_subst_empty] at hlhs hrhs
  exact Rules.joins_subst hfit.closed hlhs hrhs halpha m xs

omit hr in
theorem alpha_of_instance {fuel fuel' : Nat} {u v u' v' : Term} {bindings : List (Name × Term)}
    (hsides : goal.sides ((Evaluator.start ctx fuel).load typeName) [] = .ok (u, v))
    (halpha : u.alpha v = true) (hb : ∀ p ∈ bindings, ∃ l, p.2 = .lit l)
    (hinstance : goal.sides ((Evaluator.start ctx fuel').load typeName) bindings = .ok (u', v'))
    (hend : goal.Terminates ((Rules.ofContext ctx).load typeName).inForce bindings) :
    u'.alpha v' = true ∨
      ∃ s ∈ u'.subterms ++ v'.subterms, ((Rules.ofContext ctx).load typeName).Exposed s := by
  have hfit := h.fitting_load typeName
  have hover := over_of_mem_goals h hgoals hmem
  have hinstances {t : Term} (ht : t.Over ctx.Admits) :
      (t.subst (.ofList bindings)).Over ctx.Admits :=
    ht.subst_ofList fun p hp => by
      obtain ⟨l, hl⟩ := hb p hp
      exact hl ▸ Term.over_lit
  have hjoin := joins_instance h hgoals hmem hsides halpha (.ofList bindings) []
  obtain ⟨hu', hv'⟩ := Goal.sides_eq_ok_iff.1 hinstance
  have hlhs := normalizes_load h (hinstances hover.lhs) hu'
  have hrhs := normalizes_load h (hinstances hover.rhs) hv'
  refine or_iff_not_imp_right.2 fun hnone => ?_
  refine Rules.alpha_of_joins hfit hend.lhs hend.rhs (hinstances hover.lhs) (hinstances hover.rhs)
    hjoin hlhs.reaches hrhs.reaches
    (fun s hs w hw => hnone ⟨s, List.mem_append_left _ hs, ?_⟩)
    fun s hs w hw => hnone ⟨s, List.mem_append_right _ hs, ?_⟩
  · exact (hlhs.exposed_of_contracts s hs w hw).of_inForce
  · exact (hrhs.exposed_of_contracts s hs w hw).of_inForce

end

/-- Where an equation was proved, the sides of its instances have equal normal forms, and no
sample refutes it, unless a redex is left in one of them. -/
theorem instances_of_proved {report : Report} (hr : ctx.Reachable)
    (hrep : ctx.representation? typeName = some d)
    (hgoals : goals ctx typeName d.backing.toTy = .ok gs) (hmem : goal ∈ gs)
    (hreport : faithfulness ctx limits typeName .symbolic samples = .ok report)
    (hproved : ⟨goal.eliminator, goal.constructor, .proved⟩ ∈ report.findings) :
    (∀ bindings : List (Name × Term), (∀ p ∈ bindings, ∃ l, p.2 = .lit l) → ∀ fuel u v,
      goal.sides ((Evaluator.start ctx fuel).load typeName) bindings = .ok (u, v) →
      goal.Terminates ((Rules.ofContext ctx).load typeName).inForce bindings →
      u.alpha v = true ∨ ∃ s ∈ u.subterms ++ v.subterms,
      ((Rules.ofContext ctx).load typeName).Exposed s) ∧
    ∀ limits samples cex, faithfulness ctx limits typeName .sampling samples =
      .error (goal.unfaithful cex) →
      goal.Terminates ((Rules.ofContext ctx).load typeName).inForce cex.bindings →
      ∃ s ∈ cex.lhs.subterms ++ cex.rhs.subterms,
      ((Rules.ofContext ctx).load typeName).Exposed s := by
  have h := hr.wellFormed
  obtain ⟨u, v, hsides, halpha⟩ :=
    Goal.exists_of_symbolic_eq_proved (check_of_mem_findings h hrep hgoals hmem hreport hproved)
  refine ⟨fun bindings hb fuel u' v' => alpha_of_instance h hgoals hmem hsides halpha hb,
    fun limits samples cex herror hend => ?_⟩
  have hrefuted := refutedBy_of_unfaithful h hrep hgoals hmem herror
  have hinstance :=
    alpha_of_instance h hgoals hmem hsides halpha hrefuted.literals hrefuted.sides hend
  exact hinstance.resolve_left (Bool.eq_false_iff.1 hrefuted.differ)

theorem faithfulness_of_goal {mode : Mode} (htype : ctx.declaresType typeName = true)
    (hrep : ctx.representation? typeName = some d)
    (hgoals : goals ctx typeName d.backing.toTy = .ok [goal]) :
    faithfulness ctx limits typeName mode samples =
      (goal.check ((Evaluator.start ctx limits.fuel).load typeName) limits.sampleCases samples
        mode).map fun verdict =>
          ⟨typeName, mode, [⟨goal.eliminator, goal.constructor, verdict⟩]⟩ := by
  simp only [faithfulness, htype, hrep, hgoals, if_true, List.mapM_cons, List.mapM_nil, bind,
    Except.bind]
  cases goal.check ((Evaluator.start ctx limits.fuel).load typeName) limits.sampleCases samples
    mode <;> rfl

def atTwo (t : Term) : Term :=
  .prim .ite [.prim .eq [.app (.var "f") t, .app (.var "f") (.int 2)], .int 1, .int 0]

/-- Integers that can be compared with 2 under a function:
`Look (Mk n) f = if f n == f 2 then 1 else 0`. -/
def looks : Block := [
  .type ⟨"T", 0⟩,
  .constructor ⟨"Mk", .arrow (.prim .int) (.const "T" []), "T"⟩,
  .eliminator
    ⟨"Look", .arrow (.const "T" []) (.arrow (.arrow (.prim .int) (.prim .int)) (.prim .int)),
      "T", none⟩,
  .equation ⟨"Look", "Mk", ["n", "f"], atTwo (.var "n")⟩]

/-- They are integers; `Look` is `\x. \f. if f (x + 0) == f 2 then 1 else 0`. -/
def backedLooks : Block := [
  .representation ⟨"T", .int⟩,
  .implementation ⟨"Mk", .lam "n" (some (.prim .int)) (.var "n")⟩,
  .implementation ⟨"Look", .lam "x" (some (.prim .int))
    (.lam "f" (some (.arrow (.prim .int) (.prim .int))) (atTwo (.prim .add [.var "x", .int 0])))⟩]

def withLooks : Context := ((empty.commit looks).2.commit backedLooks).2

theorem withLooks_eq :
    withLooks = (((empty.extended looks).sealBlock 0).extended backedLooks).sealBlock 4 := by
  have hlooks : empty.errors looks = [] := List.isEmpty_iff.1 (by decide +kernel)
  have hbacked : ((empty.extended looks).sealBlock 0).errors backedLooks = [] :=
    List.isEmpty_iff.1 (by decide +kernel)
  rw [withLooks, snd_commit hlooks]
  exact snd_commit hbacked

theorem withLooks_reachable : withLooks.Reachable :=
  .commit (.commit .empty (.of_stageAll .nil (show empty.stageAll [] looks = .ok looks by cbv)))
    (.of_stageAll .nil
      (show (empty.commit looks).2.stageAll [] backedLooks = .ok backedLooks from rfl))

def lookGoal : Goal where
  typeName := "T"
  eliminator := "Look"
  constructor := "Mk"
  lhs := .elim "Look" (.ctor "Mk" [.var "n"]) [.var "f"]
  rhs := atTwo (.var "n")
  sampled := [("n", .int)]

def lookMismatch :
    Counterexample := ⟨[("n", .int 2)], .prim .ite [.bool true, .int 1, .int 0], .int 1⟩

theorem goals_looks : goals withLooks "T" (.prim .int) = .ok [lookGoal] := by
  rw [withLooks_eq]
  rfl

theorem representation?_looks : withLooks.representation? "T" = some ⟨"T", .int⟩ := by
  rw [withLooks_eq]
  cbv

theorem declaresType_looks : withLooks.declaresType "T" = true := by
  rw [withLooks_eq]
  rfl

theorem withLooks_proved :
    faithfulness withLooks {} "T" .symbolic [] =
      .ok ⟨"T", .symbolic, [⟨"Look", "Mk", .proved⟩]⟩ := by
  rw [faithfulness_of_goal declaresType_looks representation?_looks goals_looks, withLooks_eq]
  cbv

theorem withLooks_mismatch :
    faithfulness withLooks {} "T" .sampling [.int 2] =
      .error (lookGoal.unfaithful lookMismatch) := by
  rw [faithfulness_of_goal declaresType_looks representation?_looks goals_looks, withLooks_eq]
  cbv

theorem looks_contradicted :
    faithfulness withLooks {} "T" .symbolic [] = .ok ⟨"T", .symbolic, [⟨"Look", "Mk", .proved⟩]⟩ ∧
      faithfulness withLooks {} "T" .sampling [.int 2] =
        .error (lookGoal.unfaithful lookMismatch) :=
  ⟨withLooks_proved, withLooks_mismatch⟩

theorem looks_exposed :
    ∃ s ∈ lookMismatch.lhs.subterms ++ lookMismatch.rhs.subterms,
    ((Rules.ofContext withLooks).load "T").Exposed s := by
  have hlhs : ((Rules.ofContext withLooks).load "T").inForce.endsBefore 12
      (lookGoal.lhs.subst (.ofList [("n", .int 2)])) = true := by
    rw [withLooks_eq]
    decide +kernel
  have hrhs : ((Rules.ofContext withLooks).load "T").inForce.endsBefore 12
      (lookGoal.rhs.subst (.ofList [("n", .int 2)])) = true := by
    rw [withLooks_eq]
    decide +kernel
  have h :=
    instances_of_proved withLooks_reachable representation?_looks goals_looks List.mem_cons_self
      withLooks_proved List.mem_cons_self
  exact h.2 _ _ _ withLooks_mismatch ⟨Rules.terminates_of_endsBefore hlhs,
    Rules.terminates_of_endsBefore hrhs⟩

end Context

end ClosedTypes
