import ClosedTypes.Proofs.Context.Instances
import ClosedTypes.Proofs.Reduction.Canonicity
import Mathlib.Data.List.ProdSigma
/-!
Faithfulness checks of represented types. They look up nothing that is not there, go through all
pairs of an eliminator and a constructor in order, and what they find against a pair is there to be
seen.
-/

namespace ClosedTypes.Context

open Faithfulness

variable {ctx : Context} {typeName e c : Name} {d : Representation} {limits : Limits}
  {samples : List Literal} {mode : Mode}
  {gs : List Goal} {goal : Goal}

def pairs (ctx : Context) (typeName : Name) : List (Name × Name) :=
  ctx.eliminators typeName ×ˢ ctx.constructors typeName

def primitives (typeName : Name) (backing : Ty) (q : Equation) (types : List Ty) :
    List (Name × Prim) :=
  (q.binders.zip types).filterMap fun (x, t) =>
    match t.substConst typeName backing with
    | .prim p => some (x, p)
    | _ => none

structure Covers (ctx : Context) (e c : Name) (elim : Eliminator) (ctor : Constructor)
    (q : Equation) : Prop where
  eliminator : ctx.eliminator e = .ok elim
  constructor : ctx.constructor c = .ok ctor
  equation : ctx.equation? e c = some q
  fields : ctor.fields.length ≤ q.binders.length
  types : (elim.binderTypes ctor).length = q.binders.length

/-- What a counterexample to an equation shows. -/
structure Refutes (typeName : Name) (backing : Ty) (r : Evaluator) (samples : List Literal)
    (mode : Mode) (elim : Eliminator)
    (ctor : Constructor) (q : Equation) (cex : Counterexample) : Prop where
  /-- The variables that the backing makes primitive have samples of their types, or in symbolic
  mode nothing is put in. -/
  bindings : mode = .symbolic ∧ cex.bindings = [] ∨
    List.Forall₂ (fun p b => b.1 = p.1 ∧ ∃ l ∈ samples, l.prim = p.2 ∧ b.2 = .lit l)
      (primitives typeName backing q (elim.binderTypes ctor)) cex.bindings
  /-- The eliminator on the constructor, which the first variables are the fields of. -/
  lhs : ∀ xs ys, q.binders = xs ++ ys → xs.length = ctor.fields.length →
    (r.normalize ((Term.elim q.eliminator (.ctor q.constructor (xs.map .var)) (ys.map .var)).subst
      (.ofList cex.bindings))).1 = .ok cex.lhs
  rhs : (r.normalize (q.rhs.subst (.ofList cex.bindings))).1 = .ok cex.rhs
  differ : cex.lhs.alpha cex.rhs = false

section

variable (h : ctx.WellFormed)

include h

theorem nodup_filterMap {f : Entry → Option Name} (hf : ∀ e x, f e = some x → e.key = .name x) :
    (ctx.entries.filterMap f).Nodup := by
  have hdistinct : ctx.entries.Pairwise fun e e' => e.key ≠ e'.key := List.pairwise_map.1 h.distinct
  refine List.Pairwise.filterMap f (fun e e' hne x hx y hy hxy => hne ?_) hdistinct
  rw [hf e x hx, hf e' y hy, hxy]

theorem nodup_pairs (typeName : Name) : (ctx.pairs typeName).Nodup := by
  have helims : (ctx.eliminators typeName).Nodup := by
    rw [h.filed.eliminators_eq]
    refine nodup_filterMap h fun e x hx => ?_
    cases e <;> simp_all [Entry.eliminatorOf?, Entry.key]
  have hctors : (ctx.constructors typeName).Nodup := by
    rw [h.filed.constructors_eq]
    refine nodup_filterMap h fun e x hx => ?_
    cases e <;> simp_all [Entry.constructorOf?, Entry.key]
  exact helims.product hctors

theorem exists_covers (he : e ∈ ctx.eliminators typeName) (hc : c ∈ ctx.constructors typeName) :
    ∃ elim ctor q, ctx.Covers e c elim ctor q := by
  obtain ⟨elim, helim, rfl, hname⟩ := h.filed.mem_eliminators.1 he
  have helim : ctx.eliminator e = .ok elim := h.filed.eliminator_eq_ok_iff.2 ⟨helim, hname⟩
  obtain ⟨q, hq⟩ := Option.isSome_iff_exists.1 (h.isSome_equation? helim hc)
  obtain ⟨elim', ctor, helim', hctor, hchecked⟩ := h.checked_of_equation? hq
  cases helim.symm.trans helim'
  have hlen := hchecked.length
  refine ⟨elim, ctor, q, helim, hctor, hq, by omega, ?_⟩
  rw [length_binderTypes, hlen]

theorem exists_goals (typeName : Name) (backing : Ty) :
    ∃ gs, goals ctx typeName backing = .ok gs ∧
    gs.map (fun goal => (goal.eliminator, goal.constructor)) = ctx.pairs typeName := by
  refine exists_flatMapM_eq_ok fun e he => ?_
  obtain ⟨elim, hmem, -, hname⟩ := h.filed.mem_eliminators.1 he
  have helim : ctx.eliminator e = .ok elim := h.filed.eliminator_eq_ok_iff.2 ⟨hmem, hname⟩
  rw [helim]
  refine exists_mapM_eq_ok fun c hc => ?_
  obtain ⟨elim', ctor, q, hq⟩ := exists_covers h he hc
  obtain ⟨-, he', hc'⟩ := h.filed.equation?_eq_some_iff.1 hq.equation
  refine ⟨.ofEquation typeName backing q ctor.fields.length (elim.binderTypes ctor), ?_,
    Prod.ext he' hc'⟩
  simp only [hq.constructor, hq.equation]
  rfl

theorem refutes_of_refutedBy {backing : Ty} {r : Evaluator} {cex : Counterexample}
    (hgoals : goals ctx typeName backing = .ok gs)
    (hmem : goal ∈ gs) (hrefuted : goal.RefutedBy r samples mode cex) :
    ∃ elim ctor q, ctx.Covers goal.eliminator goal.constructor elim ctor q ∧
      Refutes typeName backing r samples mode elim ctor q cex := by
  obtain ⟨elim, ctor, q, helim, hctor, hq, heq⟩ := exists_of_mem_goals h hgoals hmem
  obtain ⟨elim', ctor', helim', hctor', hchecked⟩ := h.checked_of_equation? hq
  cases helim.symm.trans helim'
  cases hctor.symm.trans hctor'
  have hlen := hchecked.length
  have hcovers : ctx.Covers goal.eliminator goal.constructor elim ctor q :=
    ⟨helim, hctor, hq, by omega, by rw [length_binderTypes, hlen]⟩
  obtain ⟨hlhs, hrhs⟩ := Goal.sides_eq_ok_iff.1 hrefuted.sides
  rw [heq] at hlhs hrhs
  refine ⟨elim, ctor, q, hcovers, ?_, fun xs ys hbinders hxs => ?_, hrhs, hrefuted.differ⟩
  · refine hrefuted.bindings.symm.imp_right fun hassigns => ?_
    have hsampled : goal.sampled = primitives typeName backing q (elim.binderTypes ctor) := by
      rw [heq]
      rfl
    unfold Assigns Goal.pools at hassigns
    rw [List.forall₂_map_left_iff, hsampled] at hassigns
    refine hassigns.imp fun p b ⟨hname, l, hl, hb⟩ => ?_
    obtain ⟨hl, hprim⟩ := List.mem_filter.1 hl
    exact ⟨hname, l, hl, of_decide_eq_true hprim, hb⟩
  · simp only [Goal.ofEquation, hbinders, ← hxs, List.map_append] at hlhs
    have hlength : (xs.map Term.var).length = xs.length := List.length_map _
    rwa [← hlength, List.take_left, List.drop_left] at hlhs

end

/-- The check of a represented type either reports on every pair, or stops at the first that it
cannot accept: for want of fuel, without a decision, or with a counterexample. -/
theorem faithfulness_exact (hr : ctx.Reachable) (hrep : ctx.representation? typeName = some d)
    (limits : Limits) (mode : Mode) (samples : List Literal) :
    (ctx.pairs typeName).Nodup ∧
    (∀ p ∈ ctx.pairs typeName, ∃ elim ctor q, ctx.Covers p.1 p.2 elim ctor q) ∧
    ∃ gs, goals ctx typeName d.backing.toTy = .ok gs ∧
      gs.map (fun goal => (goal.eliminator, goal.constructor)) = ctx.pairs typeName ∧
      match faithfulness ctx limits typeName mode samples with
      | .ok report => report.typeName = typeName ∧ report.mode = mode ∧
        report.findings.map (fun finding => (finding.eliminator, finding.constructor)) =
          ctx.pairs typeName
      | .error e => ∃ before goal after, gs = before ++ goal :: after ∧
        (∀ earlier ∈ before, ∃ verdict, earlier.check
          ((Evaluator.start ctx limits.fuel).load typeName) limits.sampleCases samples mode =
          .ok verdict) ∧
        (e = .outOfFuel limits.fuel ∨ e = .undecided typeName goal.eliminator goal.constructor ∨
          ∃ cex elim ctor q, e = .unfaithful typeName goal.eliminator goal.constructor cex ∧
            ctx.Covers goal.eliminator goal.constructor elim ctor q ∧
            Refutes typeName d.backing.toTy ((Evaluator.start ctx limits.fuel).load typeName)
              samples mode elim ctor q cex) := by
  have h := hr.wellFormed
  obtain ⟨gs, hgoals, hpairs⟩ := exists_goals h typeName d.backing.toTy
  refine ⟨nodup_pairs h typeName, fun p hp => ?_, gs, hgoals, hpairs, ?_⟩
  · obtain ⟨he, hc⟩ := List.mem_product.1 hp
    exact exists_covers h he hc
  · rw [faithfulness_eq h hrep hgoals]
    split
    · rename_i report hreport
      obtain ⟨findings, hfindings, hreport⟩ := bind_eq_ok_iff.1 hreport
      cases hreport
      refine ⟨rfl, rfl, ?_⟩
      rw [← hpairs]
      refine map_eq_map_of_mapM hfindings fun goal finding hfinding => ?_
      obtain ⟨verdict, -, hfinding⟩ := bind_eq_ok_iff.1 hfinding
      cases hfinding
      rfl
    · rename_i e herror
      rcases bind_eq_error_iff.1 herror with herror | ⟨findings, -, herror⟩
      · obtain ⟨before, goal, after, heq, hcheck, hbefore⟩ := exists_split_of_mapM_eq_error herror
        have hmem : goal ∈ gs := heq ▸ List.mem_append_right before List.mem_cons_self
        have htype : goal.typeName = typeName := by
          obtain ⟨elim, ctor, q, -, -, -, hgoal⟩ := exists_of_mem_goals h hgoals hmem
          rw [hgoal]
          rfl
        refine ⟨before, goal, after, heq, fun earlier hearlier => ?_, ?_⟩
        · obtain ⟨finding, hfinding⟩ := hbefore earlier hearlier
          obtain ⟨verdict, hverdict, -⟩ := bind_eq_ok_iff.1 hfinding
          exact ⟨verdict, hverdict⟩
        · rcases bind_eq_error_iff.1 hcheck with hcheck | ⟨verdict, -, hcheck⟩
          · rcases Goal.error_of_check hcheck with rfl | rfl | ⟨cex, rfl, hrefuted⟩
            · exact .inl rfl
            · exact .inr (.inl (by rw [Goal.undecided, htype]))
            · obtain ⟨elim, ctor, q, hcovers, hrefutes⟩ :=
                refutes_of_refutedBy h hgoals hmem hrefuted
              exact .inr
                (.inr ⟨cex, elim, ctor, q, by rw [Goal.unfaithful, htype], hcovers, hrefutes⟩)
          · cases hcheck
      · cases herror

theorem looks_refuted :
    faithfulness withLooks {} "T" .sampling [.int 2] =
      .error (.unfaithful "T" "Look" "Mk" lookMismatch) ∧
      ∃ elim ctor q, withLooks.Covers "Look" "Mk" elim ctor q ∧
        Refutes "T" (.prim .int) ((Evaluator.start withLooks 10000).load "T")
          [.int 2] .sampling elim ctor q lookMismatch := by
  have main {ctx : Context} {d : Representation} {cex : Counterexample} (hr : ctx.Reachable)
      (hrep : ctx.representation? "T" = some d)
      (herror : faithfulness ctx {} "T" .sampling [.int 2] =
        .error (.unfaithful "T" "Look" "Mk" cex)) :
      ∃ elim ctor q, ctx.Covers "Look" "Mk" elim ctor q ∧
        Refutes "T" d.backing.toTy ((Evaluator.start ctx 10000).load "T")
            [.int 2] .sampling elim ctor q cex := by
    obtain ⟨-, -, gs, -, -, h⟩ := faithfulness_exact hr hrep {} .sampling [.int 2]
    rw [herror] at h
    obtain ⟨before, goal, after, -, -, h | h | ⟨cex, elim, ctor, q, h, hcovers, hrefutes⟩⟩ := h
    · cases h
    · cases h
    · obtain ⟨-, he, hc, rfl⟩ := Error.unfaithful.inj h
      rw [← he, ← hc] at hcovers
      exact ⟨elim, ctor, q, hcovers, hrefutes⟩
  exact ⟨withLooks_mismatch, main withLooks_reachable representation?_looks withLooks_mismatch⟩

end ClosedTypes.Context
