import ClosedTypes.Proofs.Typing.Inference
import ClosedTypes.Proofs.Typing.Walks
import ClosedTypes.Proofs.Reduction.NormalForm
import ClosedTypes.Proofs.Term.Capture
/-!
Metavariables after their numbers came round. A number has 32 bits; the metavariable that is made
when the table has `2 ^ 32` slots is the first one again, and a function type that is made of it
contains itself. The unification that finds this out is not looked at.
-/

namespace ClosedTypes

namespace Solutions

variable {s : Solutions} {i : UInt32} {t : Ty}

def blank (n : Nat) : Solutions := ⟨.replicate n none⟩

@[simp] theorem size_blank (n : Nat) : (blank n).size = n := by simp [blank, size]

@[simp] theorem solution?_blank (n : Nat) (i : UInt32) : (blank n).solution? i = none := by
  unfold solution? blank
  rw [Array.getElem?_replicate]
  split <;> rfl

theorem fresh_blank (n : Nat) : (blank n).fresh = (.metavar (.ofNat n), blank (n + 1)) := by
  simp [fresh, blank, size, Array.replicate_succ]

theorem unify_metavar_of_occurs (hopen : s.solution? i = none) (ht : s.isSolved t = false)
    (hne : ∀ j, t ≠ .metavar j) (hocc : s.occurs i t = true) :
    s.unify (.metavar i) t = (false, s) := by
  have hsolved : (s.isSolved (.metavar i) || s.isSolved t) = false := by simp [isSolved, hopen]
  unfold unify unifyWithin unifyWith
  simp only [hsolved, Bool.false_eq_true, if_false]
  cases t with
  | metavar j => exact absurd rfl (hne j)
  | _ =>
    rw [assign_eq, if_neg]
    simp [hocc]

theorem unify_metavar_of_open (hopen : s.solution? i = none) (hi : i.toNat < s.size)
    (hsolved : s.isSolved t = false) (hne : ∀ j, t ≠ .metavar j) (hocc : s.occurs i t = false) :
    s.unify (.metavar i) t = (true, s.set i t) := by
  have hsolved : (s.isSolved (.metavar i) || s.isSolved t) = false := by
    rw [isSolved_metavar_eq_false_iff.2 hopen, hsolved]
    rfl
  unfold unify unifyWithin unifyWith
  simp only [hsolved, Bool.false_eq_true, if_false]
  cases t with
  | metavar j => exact absurd rfl (hne j)
  | _ => rw [assign_eq, if_pos ⟨hocc, hi⟩]

theorem unify_prim_metavar {p : Prim} (hopen : s.solution? i = none) (hi : i.toNat < s.size) :
    s.unify (.prim p) (.metavar i) = (true, s.set i (.prim p)) := by
  have hsolved : (s.isSolved (.prim p) || s.isSolved (.metavar i)) = false := by
    simp [isSolved, hopen]
  have hocc : s.occurs i (.prim p) = false := by simp [occurs, Ty.mentionsMetavar, Ty.any]
  unfold unify unifyWithin unifyWith
  simp only [hsolved, Bool.false_eq_true, if_false]
  rw [assign_eq, if_pos ⟨hocc, hi⟩]

theorem unify_prim_self {p : Prim} : s.unify (.prim p) (.prim p) = (true, s) := by
  simp [unify, unifyWithin, unifyWith, isSolved]

theorem unify_prim_of_solution {p : Prim} (h : s.solution? i = some (.prim p)) :
    s.unify (.prim p) (.metavar i) = (true, s) := by
  have hsize : s.size = s.size - 1 + 1 := by have := toNat_lt_of_solution? h; omega
  have hsolved : (s.isSolved (.prim p) || s.isSolved (.metavar i)) = true := by
    simp [isSolved, h]
  have hprim : s.resolve (.prim p) = .prim p := resolve_of_not_isSolved rfl
  have hvar : s.resolve (.metavar i) = .prim p := by
    unfold resolve
    rw [hsize, resolveWithin, h]
    exact resolveWithin_of_not_isSolved rfl _
  unfold unify
  rw [hsize, Nat.mul_add, unifyWithin, unifyWith.eq_def, if_pos hsolved, hprim, hvar]
  simp [unifyWithin, unifyWith, isSolved]

theorem zonk_metavar_of_prim {p : Prim} (h : s.solution? i = some (.prim p)) :
    s.zonk (.metavar i) = .prim p := by
  have hsize : s.size = s.size - 1 + 1 := by have := toNat_lt_of_solution? h; omega
  unfold zonk
  rw [hsize, zonkWithin_succ_eq_fill, Ty.fill, Ty.bind_metavar, h]
  cases s.size - 1 <;> rfl

end Solutions

def idle : Term := .lam "y" none (.int 0)

/-- `\x. ((\y. 0, …, \y. 0), x 3)`, with `n` functions that nothing uses. -/
def crowded (n : Nat) : Term :=
  .lam "x" none (.tuple [.tuple (.replicate n idle), .app (.var "x") (.int 3)])

namespace Checker

open Solutions

variable {ctx : Context} {n m : Nat} {locals : List (Name × Ty)} {equalities : List (Term × Ty)}

theorem answers_unify_of_eq {c : Checker} {t u : Ty} {r : Bool} {s : Solutions}
    (h : c.solutions.unify t u = (r, s)) : Answers (unify t u) c r { c with solutions := s } :=
  answers_unify.2 ⟨congrArg Prod.fst h, congrArg (fun p => { c with solutions := p.2 }) h⟩

theorem answers_fresh_blank :
    Answers fresh ⟨blank m, locals, equalities⟩ (.metavar (.ofNat m))
      ⟨blank (m + 1), locals, equalities⟩ := by
  rw [answers_fresh, fresh_blank]
  exact ⟨rfl, rfl⟩

theorem answers_lam_blank {x : Name} {b : Term} {co : Ty} {s : Solutions}
    (h : Answers (judge ctx b .infer)
      ⟨blank (m + 1), (x, .metavar (.ofNat m)) :: locals, equalities⟩ co
      ⟨s, (x, .metavar (.ofNat m)) :: locals, equalities⟩) :
    Answers (judge ctx (.lam x none b) .infer) ⟨blank m, locals, equalities⟩
      (.arrow (.metavar (.ofNat m)) co) ⟨s, locals, equalities⟩ := by
  have hmode : ∀ expected d co, Mode.infer = .check expected →
      (blank m).resolve expected ≠ .arrow d co := nofun
  exact (answers_judge_lam_infer hmode).2 ⟨_, _, _, ⟨s, locals, equalities⟩, answers_fresh_blank,
    answers_withLocal.2 ⟨_, h, rfl⟩, answers_settle_infer.2 ⟨rfl, rfl⟩⟩

theorem answers_idle :
    Answers (judge ctx idle .infer) ⟨blank m, locals, equalities⟩
      (.arrow (.metavar (.ofNat m)) (.prim .int)) ⟨blank (m + 1), locals, equalities⟩ :=
  answers_lam_blank (answers_judge_lit.2 (answers_settle_infer.2 ⟨rfl, rfl⟩))

theorem exists_answers_idle : ∃ types,
    Answers (inferAll ctx (.replicate n idle)) ⟨blank m, locals, equalities⟩ types
      ⟨blank (m + n), locals, equalities⟩ := by
  induction n generalizing m with
  | zero => exact ⟨[], answers_inferAll_nil.2 ⟨rfl, rfl⟩⟩
  | succ n ih =>
    obtain ⟨types, htypes⟩ := ih (m := m + 1)
    rw [Nat.add_right_comm] at htypes
    exact ⟨_, answers_inferAll_cons.2 ⟨_, _, _, answers_idle, htypes, rfl⟩⟩

theorem answers_clash (hm : UInt32.ofNat m = 0) :
    Answers (judge ctx (.app (.var "x") (.int 3)) .infer)
      ⟨blank m, [("x", .metavar 0)], equalities⟩ (.metavar 1)
      ⟨(blank (m + 2)).set 0 (.prim .int), [("x", .metavar 0)], equalities⟩ := by
  have hnext : UInt32.ofNat (m + 1) = 1 := by rw [UInt32.ofNat_add, hm]; rfl
  have hsize : (0 : UInt32).toNat < (blank (m + 2)).size := by simp
  have hocc : (blank (m + 2)).occurs 0 (.arrow (.metavar 0) (.metavar 1)) = true := by
    unfold occurs
    simp [zonk_metavar_of_open]
  have hfail : (blank (m + 2)).unify (.metavar 0) (.arrow (.metavar 0) (.metavar 1)) =
      (false, blank (m + 2)) :=
    unify_metavar_of_occurs (solution?_blank _ _) rfl nofun hocc
  have hsolve : (blank (m + 2)).unify (.prim .int) (.metavar 0) =
      (true, (blank (m + 2)).set 0 (.prim .int)) :=
    unify_prim_metavar (solution?_blank _ _) hsize
  have hfresh : Answers fresh ⟨blank m, [("x", .metavar 0)], equalities⟩ (.metavar 0)
      ⟨blank (m + 1), [("x", .metavar 0)], equalities⟩ :=
    hm ▸ answers_fresh_blank
  have hfresh' : Answers fresh ⟨blank (m + 1), [("x", .metavar 0)], equalities⟩ (.metavar 1)
      ⟨blank (m + 2), [("x", .metavar 0)], equalities⟩ :=
    hnext ▸ answers_fresh_blank
  refine answers_judge_app.2 ⟨.metavar 0, _, .metavar 0, .metavar 1, _, .prim .int, _,
    answers_judge_var.2 ⟨_, rfl, answers_settle_infer.2 ⟨rfl, rfl⟩⟩,
    answers_functionType.2 (.inr ⟨0, _, _, false, ?_, hfresh, hfresh', answers_unify_of_eq hfail⟩),
    answers_judge_lit.2 (answers_settle_check.2 ⟨rfl, answers_unify_of_eq hsolve⟩),
    answers_settle_infer.2 ⟨rfl, rfl⟩⟩
  exact resolve_of_not_isSolved (by simp [isSolved])

theorem answers_crowded (ctx : Context) (hn : UInt32.ofNat (n + 1) = 0) : ∃ types,
    Answers (judge ctx (crowded n) .infer) initial
      (.arrow (.metavar 0) (.tuple [.tuple types, .metavar 1]))
      ⟨(blank (n + 3)).set 0 (.prim .int), [], []⟩ := by
  obtain ⟨types, htypes⟩ : ∃ types, Answers (inferAll ctx (.replicate n idle))
      ⟨blank 1, [("x", .metavar 0)], []⟩ types ⟨blank (1 + n), [("x", .metavar 0)], []⟩ :=
    exists_answers_idle
  rw [Nat.add_comm] at htypes
  exact ⟨types, answers_lam_blank (answers_judge_tuple.2 ⟨_, _, answers_inferAll_cons.2 ⟨_, _, _,
    answers_judge_tuple.2 ⟨_, _, htypes, answers_settle_infer.2 ⟨rfl, rfl⟩⟩,
    answers_inferAll_cons.2 ⟨_, _, _, answers_clash hn, answers_inferAll_nil.2 ⟨rfl, rfl⟩, rfl⟩,
    rfl⟩, answers_settle_infer.2 ⟨rfl, rfl⟩⟩)⟩

variable {ty : Ty}

theorem solution?_set_blank {p : Prim} :
    ((blank (n + 3)).set 0 (.prim p)).solution? 0 = some (.prim p) := by
  rw [solution?_set (by simp), if_pos rfl]

theorem zonk_set_blank {p : Prim} :
    ((blank (n + 3)).set 0 (.prim p)).zonk (.metavar 1) = .metavar 1 := by
  refine zonk_metavar_of_open ?_
  rw [solution?_set (by simp), if_neg (by decide), solution?_blank]

theorem inferType_crowded (ctx : Context) (hn : UInt32.ofNat (n + 1) = 0) : ∃ types,
    inferType ctx (crowded n) =
      .ok (.arrow (.prim .int) (.tuple [.tuple types, .metavar 1])) := by
  obtain ⟨types, htypes⟩ := answers_crowded ctx hn
  refine ⟨types.map ((blank (n + 3)).set 0 (.prim .int)).zonk,
    inferType_eq_ok_iff.2 ⟨_, _, htypes, List.forall_mem_nil _, ?_⟩⟩
  simp only [zonk_arrow, zonk_tuple, List.map_cons, List.map_nil, zonk_set_blank,
    zonk_metavar_of_prim solution?_set_blank]

theorem not_hasType_crowded {types : List Ty} :
    ¬HasType ctx [] (crowded n) (.arrow (.prim .int) (.tuple types)) := by
  intro h
  cases h with
  | lam h =>
    cases h with
    | tuple h =>
      cases h with
      | cons _ h =>
        cases h with
        | cons h _ =>
          cases h with
          | app hf _ =>
            cases hf with
            | var hx => cases hx

end Checker

/-- `((\x. ((\y. 0, …, \y. 0), x 3)) 5).1`. -/
def stray (n : Nat) : Term := .proj (.app (crowded n) (.int 5)) 1

def strayCall (n : Nat) : Term := .prim .add [stray n, .int 1]

namespace Checker

open Solutions

variable {ctx : Context} {n : Nat} {e typeName : Name} {d : Eliminator} {p : Prim}

theorem answers_stray (ctx : Context) (hn : UInt32.ofNat (n + 1) = 0) : ∃ s,
    Answers (judge ctx (stray n) .infer) initial (.metavar 1) ⟨s, [], []⟩ ∧
      s.solution? 1 = none ∧ (1 : UInt32).toNat < s.size := by
  obtain ⟨types, htypes⟩ := answers_crowded ctx hn
  generalize hs : (blank (n + 3)).set 0 (.prim .int) = s at htypes
  have hzero : s.solution? 0 = some (.prim .int) := hs ▸ solution?_set_blank
  have hone : s.zonk (.metavar 1) = .metavar 1 := hs ▸ zonk_set_blank
  have harg : Answers (judge ctx (.int 5) (.check (.metavar 0))) ⟨s, [], []⟩ (.prim .int)
      ⟨s, [], []⟩ :=
    answers_judge_lit.2 (answers_settle_check.2
      ⟨rfl, answers_unify_of_eq (unify_prim_of_solution hzero)⟩)
  have hcall : Answers (judge ctx (.app (crowded n) (.int 5)) .infer) initial
      (.tuple [.tuple types, .metavar 1]) ⟨s, [], []⟩ := by
    refine answers_judge_app.2 ⟨_, _, .metavar 0, _, _, _, _, htypes,
      answers_functionType.2 (.inl ⟨?_, rfl⟩), harg, answers_settle_infer.2 ⟨rfl, rfl⟩⟩
    exact resolve_of_not_isSolved rfl
  have hpart : Answers (judge ctx (stray n) .infer) initial (.metavar 1) ⟨s, [], []⟩ := by
    refine answers_judge_proj.2 ⟨_, _, [.tuple (types.map s.zonk), .metavar 1], _, hcall, ?_, rfl,
      rfl, answers_settle_infer.2 ⟨rfl, rfl⟩⟩
    simp only [zonk_tuple, List.map_cons, List.map_nil, hone]
  subst hs
  refine ⟨_, hpart, ?_, by simp⟩
  rw [solution?_set (by simp), if_neg (by decide), solution?_blank]

theorem inferType_strayCall (hn : UInt32.ofNat (n + 1) = 0) :
    inferType ctx (strayCall n) = .ok (.prim .int) := by
  obtain ⟨s, hstray, hopen, hsize⟩ := answers_stray ctx hn
  have hint : s.unify (.metavar 1) (.prim .int) = (true, s.set 1 (.prim .int)) :=
    unify_metavar_of_open hopen hsize rfl (by simp)
      (by simp [occurs, Ty.mentionsMetavar, Ty.any])
  have hleft : Answers (checkOperand ctx .add (stray n) (judge ctx (stray n) .infer)) initial ()
      ⟨s.set 1 (.prim .int), [], []⟩ :=
    answers_checkOperand.2 ⟨.metavar 1, _, answers_inspect.2
      ⟨_, hstray, zonk_metavar_of_open hopen, rfl⟩, answers_unify_of_eq hint⟩
  have hright {s : Solutions} : Answers (checkOperand ctx .add (.int 1) (judge ctx (.int 1) .infer))
      ⟨s, [], []⟩ () ⟨s, [], []⟩ :=
    answers_checkOperand.2 ⟨.prim .int, _, answers_inspect.2 ⟨_,
      answers_judge_lit.2 (answers_settle_infer.2 ⟨rfl, rfl⟩), zonk_prim _ _, rfl⟩,
      answers_unify_of_eq unify_prim_self⟩
  have hnil {s : Solutions} : Answers (checkOperands ctx .add []) ⟨s, [], []⟩ () ⟨s, [], []⟩ := by
    rw [checkOperands]
    exact answers_pure.2 ⟨rfl, rfl⟩
  have hoperands := answers_checkOperands_cons.2 ⟨_, hleft,
    answers_checkOperands_cons.2 ⟨_, hright, hnil⟩⟩
  refine inferType_eq_ok_iff.2 ⟨.prim .int, _, answers_judge_prim.2 ⟨rfl, .inr (.inr ⟨_, by simp,
    by simp, hoperands, answers_settle_infer.2 ⟨rfl, rfl⟩⟩)⟩, List.forall_mem_nil _, ?_⟩
  exact zonk_prim _ _

theorem inferType_elim_stray (hn : UInt32.ofNat (n + 1) = 0) (hd : ctx.eliminator e = .ok d)
    (hsignature : d.signature = .arrow (.const typeName []) (.prim p))
    (hcase : d.isCaseAnalysis = false) :
    inferType ctx (.elim e (stray n) []) = .ok (.prim p) := by
  obtain ⟨s, hstray, hopen, hsize⟩ := answers_stray ctx hn
  have hconst : s.unify (.metavar 1) (.const typeName []) =
      (true, s.set 1 (.const typeName [])) :=
    unify_metavar_of_open hopen hsize rfl (by simp)
      (by simp [occurs, Ty.mentionsMetavar, Ty.any, Ty.anyAll])
  have hzonk : s.zonk (.metavar 1) = .metavar 1 := zonk_metavar_of_open hopen
  have hcopy : Answers (freshCopy d.signature) ⟨s, [], []⟩ d.signature ⟨s, [], []⟩ := by
    rw [hsignature]
    exact answers_pure.2 ⟨rfl, rfl⟩
  generalize hs : s.set 1 (.const typeName []) = s' at hconst
  have hunify : Answers (unify (s.zonk (.metavar 1)) (.const typeName [])) ⟨s, [], []⟩ true
      ⟨s', [], []⟩ := by
    rw [hzonk]
    exact answers_unify_of_eq hconst
  have hpermit : Barrier.permitElimination ctx d (s.zonk (.metavar 1)) = .ok () := by
    rw [hzonk]
    rfl
  have hnone : Answers (checkAll ctx [] []) ⟨s', [], []⟩ () ⟨s', [], []⟩ := by
    rw [checkAll]
    · exact answers_pure.2 ⟨rfl, rfl⟩
    · simp
  refine inferType_eq_ok_iff.2 ⟨.prim p, ⟨s', [], []⟩, answers_judge_elim.2 ⟨d, .metavar 1, _,
    d.signature, _, .const typeName [], [], ⟨s', [], []⟩, ⟨s', [], []⟩, hd, hstray, hpermit, hcopy,
    by rw [hsignature]; rfl, hunify, rfl, ?_, ?_⟩, List.forall_mem_nil _, zonk_prim _ _⟩
  · rwa [if_neg (by rw [hcase]; decide)]
  · rw [hsignature]
    exact answers_settle_infer.2 ⟨rfl, rfl⟩

end Checker

namespace Rules

variable {rules : Rules} {n k : Nat}

theorem stuck_app_lit {l : Literal} {a : Term} : rules.Stuck (.app (.lit l) a) := .app .lit rfl

theorem whnf_stray : (rules.whnf (k + 2) (stray n)).1 = some (.app (.int 5) (.int 3), k) := by
  have hbody : ∃ u, (Term.tuple [.tuple (.replicate n idle), .app (.var "x") (.int 3)]).instantiate
      "x" (.int 5) = .tuple [u, .app (.int 5) (.int 3)] := by
    unfold Term.instantiate
    rw [Term.subst_eq_replaced, Term.replaced_tuple, List.map_cons, List.map_singleton,
      Term.replaced_app, Term.replaced_var, Term.find?_ofList_singleton, if_pos rfl]
    exact ⟨_, congrArg (fun v => Term.tuple [_, .app (.int 5) v]) Term.replaced_lit⟩
  obtain ⟨u, hbody⟩ := hbody
  have hcall : (rules.whnf (k + 2) (.app (crowded n) (.int 5))).1 =
      some (.tuple [u, .app (.int 5) (.int 3)], k + 1) := by
    refine whnf_eq_some_iff.2 (.inr ⟨_, k + 1, ?_, whnf_of_stuck .tuple⟩)
    rw [step_app, crowded, whnf_of_stuck .lam, ← hbody]
    rfl
  refine whnf_eq_some_iff.2 (.inr ⟨_, k, ?_, whnf_of_stuck stuck_app_lit⟩)
  rw [stray, step_proj, hcall]
  rfl

theorem whnf_elim_stray {e : Name} (he : rules.implementation? e = none) :
    (rules.whnf (k + 3) (.elim e (stray n) [])).1 =
      some (.elim e (.app (.int 5) (.int 3)) [], k) := by
  have hmoved : moved (k + 3) (k + 1) (.elim e (.app (.int 5) (.int 3)) []) =
      some (.elim e (.app (.int 5) (.int 3)) []) := if_neg (by omega)
  refine whnf_eq_some_iff.2 (.inr ⟨_, k, ?_, whnf_of_stuck (.elim he stuck_app_lit rfl)⟩)
  rw [step_elim he, whnf_stray, Option.map_some, hmoved]
  rfl

theorem whnf_elim_stray_of_implemented {e x : Name} {dom : Option Ty}
    (he : rules.implementation? e = some (.lam x dom (.var x))) :
    (rules.whnf (k + 4) (.elim e (stray n) [])).1 = some (.app (.int 5) (.int 3), k) := by
  have hbeta : (Term.lam x dom (.var x)).beta? (stray n) = some (stray n) := by
    show some ((Term.var x).instantiate x (stray n)) = _
    unfold Term.instantiate
    rw [Term.subst_eq_replaced, Term.replaced_var, Term.find?_ofList_singleton, if_pos rfl]
    rfl
  have happ : (rules.whnf (k + 3) (.app (.lam x dom (.var x)) (stray n))).1 =
      some (.app (.int 5) (.int 3), k) := by
    refine whnf_eq_some_iff.2 (.inr ⟨stray n, k + 2, ?_, whnf_stray⟩)
    rw [step_app, whnf_of_stuck .lam, Option.map_some, hbeta]
    rfl
  refine whnf_eq_some_iff.2 (.inr ⟨_, k + 3, ?_, happ⟩)
  exact step_elim_of_implemented he

theorem whnf_strayCall : (rules.whnf (k + 3) (strayCall n)).1 =
    some (.prim .add [.app (.int 5) (.int 3), .int 1], k) := by
  have hsum : rules.Stuck (.prim .add [.app (.int 5) (.int 3), .int 1]) := by
    refine .prim (fun h => nomatch h.1) (fun a ha => ?_) rfl
    rcases List.mem_cons.1 ha with rfl | ha
    · exact stuck_app_lit
    · exact List.mem_singleton.1 ha ▸ .lit
  refine whnf_eq_some_iff.2 (.inr ⟨_, k, ?_, whnf_of_stuck hsum⟩)
  have hbranching : ¬IsBranching .add [stray n, .int 1] := fun h => nomatch h.1
  have hone : (rules.whnfEach (k + 1) [.int 1]).1 = some ([.int 1], k + 1) := by
    rw [whnfEach_cons, show (Term.int 1) = .lit (.int 1) from rfl, whnf_of_stuck .lit,
      Option.bind_some, whnfEach_nil]
    rfl
  have hmoved : moved (k + 3) (k + 1) (.prim .add [.app (.int 5) (.int 3), .int 1]) =
      some (.prim .add [.app (.int 5) (.int 3), .int 1]) := if_neg (by omega)
  rw [strayCall, step_prim hbranching, whnfEach_cons, whnf_stray, Option.bind_some]
  dsimp only
  rw [hone, Option.map_some, Option.map_some, hmoved]
  rfl

end Rules

end ClosedTypes
