import ClosedTypes.Proofs.Context.Congruence
import ClosedTypes.Proofs.Context.Faithfulness
import ClosedTypes.Proofs.Reduction.Loaded
import ClosedTypes.Proofs.Reduction.Termination
/-!
What a sound report is good for: no program can tell whether a type goes by its equations or by its
representation. Whatever the equations do to a term, the implementations undo, as both sides of each
equation come together; so where reduction ends there is one literal for both to come to.
-/

namespace ClosedTypes

open Faithfulness

namespace Term

variable {xs : List Name} {us fields args : List Term} {e c : Name}

theorem find?_ofList_zip (hnodup : xs.Nodup) (hlen : xs.length = us.length) {i : Nat}
    (hi : i < xs.length) (hi' : i < us.length) :
    (Index.ofList (xs.zip us)).find? xs[i] = some us[i] := by
  obtain ⟨a, ha⟩ := Skeleton.isSome_find?_zip hlen (List.getElem_mem hi)
  obtain ⟨j, hj, heq⟩ := List.getElem_of_mem (Index.mem_of_find?_ofList ha)
  rw [List.getElem_zip, Prod.mk.injEq] at heq
  obtain rfl : j = i := hnodup.getElem_inj_iff.1 heq.1
  rw [ha, ← heq.2]

theorem subst_pattern (hnodup : xs.Nodup) (hlen : xs.length = (fields ++ args).length) :
    (Term.elim e (.ctor c ((xs.map .var).take fields.length))
      ((xs.map .var).drop fields.length)).subst (.ofList (xs.zip (fields ++ args))) =
        .elim e (.ctor c fields) args := by
  rw [subst_eq_replaced, replaced_elim, replaced_ctor, List.map_take, List.map_drop]
  generalize (Index.ofList (xs.zip (fields ++ args))).values.flatMap free = avoid
  have hvars : (xs.map Term.var).map (replaced avoid (.ofList (xs.zip (fields ++ args)))) =
      fields ++ args := by
    refine List.ext_getElem (by simpa using hlen) fun i hi hi' => ?_
    have hxs : i < xs.length := by simpa using hi
    rw [List.getElem_map, List.getElem_map, replaced_var, find?_ofList_zip hnodup hlen hxs hi']
    rfl
  rw [hvars, List.take_left, List.drop_left]

end Term

namespace Rules

variable {known : Use → Prop} {rules rules' : Rules} {t v : Term}

theorem reaches_of_joins (hrules : rules'.Fitting known) (h : rules.Reaches t v)
    (hstep : ∀ s u, rules.Reaches t s → rules.Reduces s u →
      Skeleton.Joins rules' (s.skeleton []) (u.skeleton []))
    (hend : ∀ s, rules.Reaches t s → s.Over known ∧ rules'.Terminates s)
    (hnormal : ∀ w, ¬Skeleton.Reduces rules' (v.skeleton []) w) :
    Skeleton.Reaches rules' (t.skeleton []) (v.skeleton []) := by
  induction h using Relation.ReflTransGen.head_induction_on with
  | refl => exact .refl
  | @head s u hs _ ih =>
    obtain ⟨w, hsw, huw⟩ := hstep s u .refl hs
    obtain ⟨hover, huend⟩ := hend u (.single hs)
    have huv := ih (fun s' u' hs' => hstep s' u' (.head hs hs')) fun s' hs' =>
      hend s' (.head hs hs')
    have hwv := huv.of_normal hrules.closed (huend.skeleton hrules hover []) huw hnormal
    exact hsw.trans hwv

theorem Contracts.load_of_ofContext {ctx : Context} {typeName : Name} {u : Term}
    (h : (ofContext ctx).Contracts t u) : ((ofContext ctx).load typeName).Contracts t u :=
  h.mono (fun _ _ _ hd => hd) fun _ _ hbody => nomatch hbody

theorem Contracts.of_inForce {u : Term} (h : rules.inForce.Contracts t u) : rules.Contracts t u :=
  h.mono (fun _ _ _ hd => (equation?_inForce.1 hd).2) fun _ _ hbody => hbody

end Rules

namespace Context

variable {ctx : Context} {typeName e c : Name} {d : Representation} {limits : Limits}
  {samples : List Literal} {gs : List Goal} {goal : Goal} {report : Report} {s t u v v' : Term}
  {fields args : List Term}

theorem WellFormed.exists_lit_of_normalize (h : ctx.WellFormed)
    (hn : FullyNumbered ctx t) {p : Prim}
    (ht : inferType ctx t = .ok (.prim p)) {typeNames : List Name} {n k : Nat}
    (hu : (((Rules.ofContext ctx).loadAll typeNames).normalize n t).1 = some (u, k)) :
    ∃ l, u = .lit l := by
  rw [Rules.normalize_eq_bind, Option.bind_eq_some_iff] at hu
  obtain ⟨⟨w, m⟩, hw, hu⟩ := hu
  obtain ⟨l, rfl, -⟩ := Rules.demands_of_whnf_loadAll h hn ht hw
  cases hu
  exact ⟨l, rfl⟩

section

variable (h : ctx.WellFormed) (hr : ctx.representation? typeName = some d)
  (hreport : faithfulness ctx limits typeName .symbolic samples = .ok report)
  (hproof : report.isProof = true)

include h hr hreport hproof

theorem exists_sides_of_isProof (hgoals : goals ctx typeName d.backing.toTy = .ok gs)
    (hmem : goal ∈ gs) : ∃ u v,
      goal.sides ((Evaluator.start ctx limits.fuel).load typeName) [] = .ok (u, v) ∧
        u.alpha v = true := by
  have hfaithful := hreport
  rw [faithfulness_eq h hr hgoals] at hfaithful
  obtain ⟨findings, hfindings, heq⟩ := bind_eq_ok_iff.1 hfaithful
  cases heq
  have hpairs := map_eq_map_of_mapM (p := fun f => (f.eliminator, f.constructor))
    (q := fun g => (g.eliminator, g.constructor)) hfindings fun g f hf => by
      obtain ⟨verdict, -, hf⟩ := bind_eq_ok_iff.1 hf
      cases hf
      rfl
  have hpair : (goal.eliminator, goal.constructor) ∈
      findings.map fun f => (f.eliminator, f.constructor) := by
    rw [hpairs]
    exact List.mem_map_of_mem hmem
  obtain ⟨⟨e, c, verdict⟩, hfinding, heq⟩ := List.mem_map.1 hpair
  cases heq
  have hall : ∀ f ∈ findings, f.verdict = .proved := by simpa [Report.isProof] using hproof
  obtain rfl : verdict = .proved := hall _ hfinding
  exact Goal.exists_of_symbolic_eq_proved (check_of_mem_findings h hr hgoals hmem hreport hfinding)

theorem joins_of_equation {q : Equation} {body : Term} (hq : ctx.equation? e c = some q)
    (hbody : ((Rules.ofContext ctx).load typeName).implementation? e = some body)
    (ht : (Term.elim e (.ctor c fields) args).Over ctx.Admits) (xs : List Name) :
    Skeleton.Joins ((Rules.ofContext ctx).load typeName).inForce
      ((Term.elim e (.ctor c fields) args).skeleton xs)
      ((q.rhs.subst (.ofList (q.binders.zip (fields ++ args)))).skeleton xs) := by
  have hbody' : ((Rules.ofContext ctx).loadAll [typeName]).implementation? e = some body := hbody
  obtain ⟨-, typeName', hloaded, r, signature, himplemented⟩ :=
    h.exists_of_implementation?_loadAll hbody'
  rw [List.mem_singleton.1 hloaded] at himplemented
  obtain ⟨elim, ctor, helim, hctor, hchecked⟩ := h.checked_of_equation? hq
  have howner : ctx.owner? e = some elim.owner := owner?_eq_some_iff.2 (.inr ⟨elim, helim, rfl⟩)
  obtain rfl : elim.owner = typeName := Option.some.inj (howner.symm.trans himplemented.operation)
  -- the pair of the operations is one of those that the report is about
  have hpair : (e, c) ∈ ctx.pairs elim.owner := by
    obtain ⟨hemem, hename⟩ := h.filed.eliminator_eq_ok_iff.1 helim
    obtain ⟨hcmem, hcname⟩ := h.filed.constructor_eq_ok_iff.1 hctor
    exact List.pair_mem_product.2 ⟨h.filed.mem_eliminators.2 ⟨elim, hemem, rfl, hename⟩,
      h.filed.mem_constructors.2 ⟨ctor, hcmem, hchecked.owner, hcname⟩⟩
  obtain ⟨gs, hgoals, hpairs⟩ := exists_goals h elim.owner d.backing.toTy
  obtain ⟨goal, hmem, heq⟩ := List.mem_map.1 (hpairs ▸ hpair)
  cases heq
  obtain ⟨elim', ctor', q', -, hctor', hq', heq⟩ := exists_of_mem_goals h hgoals hmem
  cases hctor.symm.trans hctor'
  cases hq.symm.trans hq'
  obtain ⟨u, v, hsides, halpha⟩ := exists_sides_of_isProof h hr hreport hproof hgoals hmem
  have hjoin := joins_instance h hgoals hmem hsides halpha
    (.ofList (q.binders.zip (fields ++ args))) xs
  rw [Term.over_elim, Term.over_ctor] at ht
  obtain ⟨⟨elim'', helim'', hargs⟩, ⟨⟨ctor'', hctor'', hfields⟩, -⟩, -⟩ := ht
  cases helim.symm.trans helim''
  cases hctor.symm.trans hctor''
  have hlen : q.binders.length = (fields ++ args).length := by
    rw [hchecked.length, hfields, hargs, List.length_append]
  rw [heq] at hjoin
  simp only [Goal.ofEquation, hfields, Term.subst_pattern hchecked.nodup hlen] at hjoin
  obtain ⟨-, he, hc⟩ := h.filed.equation?_eq_some_iff.1 hq
  rwa [he, hc] at hjoin

theorem joins_of_contracts (hs : (Rules.ofContext ctx).Contracts s u) (hover : s.Over ctx.Admits)
    (xs : List Name) : Skeleton.Joins ((Rules.ofContext ctx).load typeName).inForce
      (s.skeleton xs) (u.skeleton xs) := by
  have inForce (hs : ((Rules.ofContext ctx).load typeName).inForce.Contracts s u) :
      Skeleton.Joins ((Rules.ofContext ctx).load typeName).inForce (s.skeleton xs)
          (u.skeleton xs) :=
    .of_reaches (.single (.here (hs.skeleton (h.fitting_load typeName) hover xs)))
  cases hs with
  | beta => exact inForce .beta
  | erasure => exact inForce .erasure
  | projection hi => exact inForce (.projection hi)
  | branch => exact inForce .branch
  | fold hfold => exact inForce (.fold hfold)
  | constructor hbody => cases hbody
  | eliminator hbody => cases hbody
  | @equation e c fields args q hq =>
    cases hbody : ((Rules.ofContext ctx).load typeName).implementation? e with
    | none => exact inForce (.equation (Rules.equation?_inForce.2 ⟨hbody, hq⟩))
    | some body => exact joins_of_equation h hr hreport hproof hq hbody hover xs

theorem joins_of_reduces (hs : (Rules.ofContext ctx).Reduces s u) (hover : s.Over ctx.Admits) :
    Skeleton.Joins ((Rules.ofContext ctx).load typeName).inForce (s.skeleton [])
      (u.skeleton []) := by
  obtain ⟨frames, a, b, hab, rfl, rfl⟩ := hs.exists_fill
  exact Skeleton.joins_fill
    (joins_of_contracts h hr hreport hproof hab (Term.over_fill hover)) frames []

theorem reaches_lit_of_isProof {l : Literal} (hover : t.Over ctx.Admits)
    (hend : ((Rules.ofContext ctx).load typeName).Terminates t)
    (hl : (Rules.ofContext ctx).Reaches t (.lit l)) :
    Skeleton.Reaches ((Rules.ofContext ctx).load typeName).inForce (t.skeleton [])
      ((Term.lit l).skeleton []) := by
  have hovers {s : Term} (hs : (Rules.ofContext ctx).Reaches t s) : s.Over ctx.Admits :=
    h.fitting_ofContext.covered.reaches hover hs
  have hends {s : Term} (hs : (Rules.ofContext ctx).Reaches t s) :
      ((Rules.ofContext ctx).load typeName).inForce.Terminates s := by
    have hs' : ((Rules.ofContext ctx).load typeName).Reaches t s := hs.lift id fun _ _ hstep =>
      hstep.of_contracts fun _ _ => Rules.Contracts.load_of_ofContext
    exact (hend.reaches hs').of_contracts fun _ _ => Rules.Contracts.of_inForce
  exact Rules.reaches_of_joins (h.fitting_load typeName) hl
    (fun s u hs hstep => joins_of_reduces h hr hreport hproof hstep (hovers hs))
    (fun s hs => ⟨hovers hs, hends hs⟩) fun w => Skeleton.not_reduces_lit

end

/-- Where the report on a type is sound, a term of primitive type has one value, by the equations of
the type and by its representation, if reduction by both of them ends. -/
theorem unobservable_of_isProof {p : Prim} {fuel fuel' : Nat} (hr : ctx.Reachable)
    (hrep : ctx.representation? typeName = some d)
    (hreport : faithfulness ctx limits typeName .symbolic samples = .ok report)
    (hproof : report.isProof = true) (hn : FullyNumbered ctx t)
    (ht : inferType ctx t = .ok (.prim p))
    (hend : ((Rules.ofContext ctx).load typeName).Terminates t)
    (hv : normalize ctx t fuel = .ok v)
    (hv' : (((Evaluator.start ctx fuel').load typeName).normalize t).1 = .ok v') : v = v' := by
  have h := hr.wellFormed
  have hfit := h.fitting_load typeName
  have hover : t.Over ctx.Admits := (Checker.inScope_of_inferType h.shaped ht).uses
  obtain ⟨k, hk : (((Rules.ofContext ctx).loadAll []).normalize fuel t).1 = some (v, k)⟩ :=
    Evaluator.fst_ask_eq_ok_iff.1 hv
  obtain ⟨k', hk' : (((Rules.ofContext ctx).loadAll [typeName]).normalize fuel' t).1 =
      some (v', k')⟩ := Evaluator.fst_ask_eq_ok_iff.1 hv'
  obtain ⟨l, rfl⟩ := h.exists_lit_of_normalize hn ht hk
  obtain ⟨l', rfl⟩ := h.exists_lit_of_normalize hn ht hk'
  have hl := reaches_lit_of_isProof h hrep hreport hproof hover hend
    (Rules.normalizes_of_normalize hk).reaches
  have hl' := (normalizes_load h hover hv').reaches.skeleton hfit hover []
  have hends : ((Rules.ofContext ctx).load typeName).inForce.Terminates t :=
    hend.of_contracts fun _ _ => Rules.Contracts.of_inForce
  have hboth := hl.of_normal hfit.closed (hends.skeleton hfit hover []) hl'
    fun w => Skeleton.not_reduces_lit
  cases Skeleton.eq_lit_of_reaches hboth
  rfl

def cells : Block := [
  .type ⟨"Cell", 0⟩,
  .constructor ⟨"Put", .arrow (.prim .int) (.const "Cell" []), "Cell"⟩,
  .eliminator ⟨"Get", .arrow (.const "Cell" []) (.prim .int), "Cell", none⟩,
  .equation ⟨"Get", "Put", ["n"], .var "n"⟩]

def backedCells : Block := [
  .representation ⟨"Cell", .int⟩,
  .implementation ⟨"Put", .lam "n" none (.var "n")⟩,
  .implementation ⟨"Get", .lam "x" none (.var "x")⟩]

def withCells : Context := ((empty.commit cells).2.commit backedCells).2

theorem withCells_eq :
    withCells = (((empty.extended cells).sealBlock 0).extended backedCells).sealBlock 4 := by
  have hcells : empty.errors cells = [] := List.isEmpty_iff.1 (by decide +kernel)
  have hbacked : ((empty.extended cells).sealBlock 0).errors backedCells = [] :=
    List.isEmpty_iff.1 (by decide +kernel)
  rw [withCells, snd_commit hcells]
  exact snd_commit hbacked

theorem withCells_reachable : withCells.Reachable :=
  .commit (.commit .empty (.of_stageAll .nil (show empty.stageAll [] cells = .ok cells from rfl)))
    (.of_stageAll .nil
      (show (empty.commit cells).2.stageAll [] backedCells = .ok backedCells from rfl))

theorem withCells_represented : withCells.representation? "Cell" = some ⟨"Cell", .int⟩ := by
  rw [withCells_eq]
  rfl

def cellGoal : Goal where
  typeName := "Cell"
  eliminator := "Get"
  constructor := "Put"
  lhs := .elim "Get" (.ctor "Put" [.var "n"]) []
  rhs := .var "n"
  sampled := [("n", .int)]

theorem withCells_proved : faithfulness withCells {} "Cell" .symbolic [] =
    .ok ⟨"Cell", .symbolic, [⟨"Get", "Put", .proved⟩]⟩ := by
  have htype : withCells.declaresType "Cell" = true := by
    rw [withCells_eq]
    rfl
  have hgoals : goals withCells "Cell" (.prim .int) = .ok [cellGoal] := by
    rw [withCells_eq]
    rfl
  rw [faithfulness_of_goal htype withCells_represented hgoals, withCells_eq]
  cbv

def getPut : Term := .elim "Get" (.ctor "Put" [.prim .add [.int 1, .int 1]]) []

theorem inferType_getPut : inferType withCells getPut = .ok (.prim .int) := by
  rw [withCells_eq]
  rfl

theorem fullyNumbered_getPut : FullyNumbered withCells getPut := by
  have hentries : withCells.entries = cells ++ backedCells := by
    rw [withCells_eq]
    rfl
  refine .of_usage withCells_reachable.wellFormed inferType_getPut (by decide +kernel)
    (fun d hmem => ?_) fun d hmem => ?_
  · obtain rfl : d = ⟨"Get", "Put", ["n"], .var "n"⟩ := by
      rw [hentries] at hmem
      simpa [cells, backedCells] using hmem
    decide +kernel
  · have hd : d = ⟨"Put", .lam "n" none (.var "n")⟩ ∨ d = ⟨"Get", .lam "x" none (.var "x")⟩ := by
      rw [hentries] at hmem
      simpa [cells, backedCells] using hmem
    rcases hd with rfl | rfl <;> decide +kernel

theorem getPut_unobservable :
    (((Evaluator.start withCells 10).load "Cell").normalize getPut).1 =
      normalize withCells getPut 10 := by
  have hends : ((Rules.ofContext withCells).load "Cell").endsBefore 10 getPut = true := by
    rw [withCells_eq]
    decide +kernel
  have hv : normalize withCells getPut 10 = .ok (.int 2) := by
    rw [withCells_eq]
    cbv
  have hv' : (((Evaluator.start withCells 10).load "Cell").normalize getPut).1 = .ok (.int 2) := by
    rw [withCells_eq]
    cbv
  rw [hv, hv', unobservable_of_isProof withCells_reachable withCells_represented withCells_proved
    rfl fullyNumbered_getPut inferType_getPut (Rules.terminates_of_endsBefore hends) hv hv']

/-- Where the numbers come round, a cell that is an applied integer is stuck by the equations,
and by the representation the integer is all that is left. -/
theorem stray_observed : withCells.Reachable ∧
    (∃ d, withCells.representation? "Cell" = some d) ∧
      (∃ report, faithfulness withCells {} "Cell" .symbolic [] = .ok report ∧
        report.isProof = true) ∧
        inferType withCells (.elim "Get" (stray 4294967295) []) = .ok (.prim .int) ∧
          normalize withCells (.elim "Get" (stray 4294967295) []) 4 =
            .ok (.elim "Get" (.app (.int 5) (.int 3)) []) ∧
            (((Evaluator.start withCells 4).load "Cell").normalize
              (.elim "Get" (stray 4294967295) [])).1 = .ok (.app (.int 5) (.int 3)) := by
  have helim : withCells.eliminator "Get" =
      .ok ⟨"Get", .arrow (.const "Cell" []) (.prim .int), "Cell", none⟩ := by
    rw [withCells_eq]
    rfl
  have hbody : ((Rules.ofContext withCells).load "Cell").implementation? "Get" =
      some (.lam "x" none (.var "x")) := by
    rw [withCells_eq]
    rfl
  refine ⟨withCells_reachable, ⟨_, withCells_represented⟩, ⟨_, withCells_proved, rfl⟩,
    Checker.inferType_elim_stray rfl helim rfl rfl, Evaluator.fst_ask_eq_ok_iff.2 ⟨1, ?_⟩,
    Evaluator.fst_ask_eq_ok_iff.2 ⟨0, ?_⟩⟩
  · show ((Rules.ofContext withCells).normalize 4 (.elim "Get" (stray 4294967295) [])).1 = _
    rw [Rules.normalize_eq_bind, Rules.whnf_elim_stray rfl, Option.bind_some, withCells_eq]
    cbv
  · show (((Rules.ofContext withCells).load "Cell").normalize 4
      (.elim "Get" (stray 4294967295) [])).1 = _
    rw [Rules.normalize_eq_bind, Rules.whnf_elim_stray_of_implemented hbody, Option.bind_some,
      withCells_eq]
    cbv

end Context

end ClosedTypes
