import ClosedTypes.Proofs.Context.WellFormed
/-!
How many metavariables it takes to judge a term. The term itself and the signatures that it uses set
the limit, whatever is known when the judgement begins.
-/

namespace ClosedTypes

def Context.signatureVars (ctx : Context) (x : Name) : Nat :=
  match ctx.find? x with
  | some (.constructor d) => d.signature.vars.length
  | some (.eliminator d) => d.signature.vars.length
  | _ => 0

theorem Context.signatureVars_constructor {ctx : Context} {x : Name} {d : Constructor}
    (h : ctx.constructor x = .ok d) :
    ctx.signatureVars x = d.signature.vars.length := by
  rw [signatureVars, constructor_eq_ok_iff.1 h]

theorem Context.signatureVars_eliminator {ctx : Context} {x : Name} {d : Eliminator}
    (h : ctx.eliminator x = .ok d) :
    ctx.signatureVars x = d.signature.vars.length := by
  rw [signatureVars, eliminator_eq_ok_iff.1 h]

namespace Term

mutual

/-- The metavariables that it may take to judge the term. -/
def usage (ctx : Context) : Term → Nat
  | var _ => 0
  | lit _ => 0
  | lam _ _ b => b.usage ctx + 1
  | app f a => f.usage ctx + a.usage ctx + 2
  | ann t _ => t.usage ctx
  | ctor c args => ctx.signatureVars c + usageAll ctx args
  | elim e s args => s.usage ctx + ctx.signatureVars e + (usageAll ctx args + args.length)
  | prim _ args => usageAll ctx args
  | tuple elems => usageAll ctx elems
  | proj t _ => t.usage ctx

def usageAll (ctx : Context) : List Term → Nat
  | [] => 0
  | t :: ts => t.usage ctx + usageAll ctx ts

end

end Term

namespace Checker

variable {ctx : Context} {c c' c'' : Checker} {t : Term} {ts : List Term} {ty : Ty} {mode : Mode}
  {op : Operator} {n m : Nat}

structure Takes (n : Nat) (c c' : Checker) : Prop where
  acyclic : c'.solutions.Acyclic
  size : c'.solutions.size ≤ c.solutions.size + n

theorem Takes.refl (hc : c.solutions.Acyclic) : Takes 0 c c := ⟨hc, Nat.le_refl _⟩

theorem Takes.trans (h : Takes n c c') (h' : Takes m c' c'') : Takes (n + m) c c'' :=
  ⟨h'.acyclic, by have := h.size; have := h'.size; omega⟩

theorem Takes.mono (h : Takes n c c') (hle : n ≤ m) : Takes m c c' :=
  ⟨h.acyclic, Nat.le_trans h.size (Nat.add_le_add_left hle _)⟩

theorem takes_unify {a b : Ty} {r : Bool} (hc : c.solutions.Acyclic)
    (h : Answers (unify a b) c r c') : Takes 0 c c' := by
  obtain ⟨-, rfl⟩ := answers_unify.1 h
  have hp : Solutions.Hereditary fun _ => True :=
    ⟨fun _ _ _ => trivial, fun _ => ⟨trivial, trivial⟩, fun _ _ _ => trivial⟩
  have spec :=
    Solutions.unified_unify (a := a) (b := b) hp hc (fun _ _ _ => trivial) trivial trivial
  exact ⟨spec.acyclic, Nat.le_of_eq spec.ext.size⟩

theorem takes_fresh (hc : c.solutions.Acyclic) (h : Answers fresh c ty c') : Takes 1 c c' := by
  obtain ⟨-, rfl⟩ := answers_fresh.1 h
  exact ⟨hc.fresh, Nat.le_of_eq (Solutions.size_fresh _)⟩

theorem takes_settle {found : Ty} (hc : c.solutions.Acyclic)
    (h : Answers (settle t found mode) c ty c') : Takes 0 c c' := by
  cases mode with
  | infer =>
    obtain ⟨-, rfl⟩ := answers_settle_infer.1 h
    exact .refl hc
  | check expected => exact takes_unify hc (answers_settle_check.1 h).2

theorem takes_functionType {d co : Ty} (hc : c.solutions.Acyclic)
    (h : Answers (functionType t ty) c (d, co) c') : Takes 2 c c' := by
  rcases answers_functionType.1 h with ⟨-, rfl⟩ | ⟨i, c₁, c₂, r, -, hd, hco, hu⟩
  · exact (Takes.refl hc).mono (Nat.zero_le _)
  · have h₁ := takes_fresh hc hd
    have h₂ := takes_fresh h₁.acyclic hco
    exact (h₁.trans h₂).trans (takes_unify h₂.acyclic hu)

theorem takes_freshAll {xs : List Name} {bs : List (Name × Ty)} (hc : c.solutions.Acyclic)
    (h : Answers (freshAll xs) c bs c') :
    Takes xs.length c c' := by
  induction xs generalizing c bs with
  | nil =>
    obtain ⟨-, rfl⟩ := answers_pure.1 h
    exact .refl hc
  | cons x xs ih =>
    simp only [freshAll, answers_bind, answers_pure] at h
    obtain ⟨t, c₁, ht, bs', _, hbs, -, rfl⟩ := h
    have h₁ := takes_fresh hc ht
    refine (h₁.trans (ih h₁.acyclic hbs)).mono ?_
    rw [List.length_cons, Nat.add_comm]

theorem takes_freshCopy {signature : Ty} (hc : c.solutions.Acyclic)
    (h : Answers (freshCopy signature) c ty c') :
    Takes signature.vars.length c c' := by
  simp only [freshCopy, answers_bind, answers_pure] at h
  obtain ⟨bs, _, hbs, -, rfl⟩ := h
  exact takes_freshAll hc hbs

def Bounded (ctx : Context) (t : Term) : Prop :=
  ∀ {c mode ty c'}, c.solutions.Acyclic → Answers (judge ctx t mode) c ty c' →
    Takes (t.usage ctx) c c'

theorem Bounded.inspect (ht : Bounded ctx t) (hc : c.solutions.Acyclic)
    (h : Answers (inspect ctx op (judge ctx t .infer)) c ty c') :
    Takes (t.usage ctx) c c' := by
  obtain ⟨u, hu, -⟩ := answers_inspect.1 h
  exact ht hc hu

theorem Bounded.checkOperand (ht : Bounded ctx t) (hc : c.solutions.Acyclic)
    (h : Answers (checkOperand ctx op t (judge ctx t .infer)) c () c') :
    Takes (t.usage ctx) c c' := by
  obtain ⟨found, c₁, hi, hu⟩ := answers_checkOperand.1 h
  have h₁ := ht.inspect hc hi
  exact h₁.trans (takes_unify h₁.acyclic hu)

theorem takes_inferAll {types : List Ty} (hts : ∀ t ∈ ts, Bounded ctx t) (hc : c.solutions.Acyclic)
    (h : Answers (inferAll ctx ts) c types c') : Takes (Term.usageAll ctx ts) c c' := by
  induction ts generalizing c types with
  | nil =>
    obtain ⟨-, rfl⟩ := answers_inferAll_nil.1 h
    exact .refl hc
  | cons t ts ih =>
    obtain ⟨ht, hts⟩ := List.forall_mem_cons.1 hts
    obtain ⟨u, c₁, us, hu, hus, -⟩ := answers_inferAll_cons.1 h
    have h₁ := ht hc hu
    exact h₁.trans (ih hts h₁.acyclic hus)

theorem takes_checkAll {ds : List Ty} (hts : ∀ t ∈ ts, Bounded ctx t) (hc : c.solutions.Acyclic)
    (h : Answers (checkAll ctx ts ds) c () c') : Takes (Term.usageAll ctx ts) c c' := by
  induction ts generalizing c ds with
  | nil =>
    obtain ⟨-, rfl⟩ := answers_pure.1 h
    exact .refl hc
  | cons t ts ih =>
    cases ds with
    | nil =>
      obtain ⟨-, rfl⟩ := answers_pure.1 h
      exact (Takes.refl hc).mono (Nat.zero_le _)
    | cons d ds =>
      obtain ⟨ht, hts⟩ := List.forall_mem_cons.1 hts
      obtain ⟨u, c₁, hu, hus⟩ := answers_checkAll_cons.1 h
      have h₁ := ht hc hu
      exact h₁.trans (ih hts h₁.acyclic hus)

theorem takes_checkOperands (hts : ∀ t ∈ ts, Bounded ctx t) (hc : c.solutions.Acyclic)
    (h : Answers (checkOperands ctx op ts) c () c') : Takes (Term.usageAll ctx ts) c c' := by
  induction ts generalizing c with
  | nil =>
    obtain ⟨-, rfl⟩ := answers_pure.1 h
    exact .refl hc
  | cons t ts ih =>
    obtain ⟨ht, hts⟩ := List.forall_mem_cons.1 hts
    obtain ⟨c₁, hu, hus⟩ := answers_checkOperands_cons.1 h
    have h₁ := ht.checkOperand hc hu
    exact h₁.trans (ih hts h₁.acyclic hus)

theorem takes_judgeBranches {e : Name} {motive : Ty} {i : Nat} {ds : List Ty} {cs : List Name}
    (hts : ∀ t ∈ ts, Bounded ctx t)
    (hc : c.solutions.Acyclic) (h : Answers (judgeBranches ctx e motive i ts ds cs) c () c') :
    Takes (Term.usageAll ctx ts + ts.length) c c' := by
  -- the lists go in step as far as all of them go, and each branch takes one metavariable for its
  -- result
  induction ts generalizing c ds cs i with
  | nil =>
    obtain ⟨-, rfl⟩ := answers_pure.1 h
    exact .refl hc
  | cons t ts ih =>
    cases ds with
    | nil =>
      obtain ⟨-, rfl⟩ := answers_pure.1 h
      exact (Takes.refl hc).mono (Nat.zero_le _)
    | cons d ds =>
      cases cs with
      | nil =>
        obtain ⟨-, rfl⟩ := answers_pure.1 h
        exact (Takes.refl hc).mono (Nat.zero_le _)
      | cons x cs =>
        obtain ⟨ht, hts⟩ := List.forall_mem_cons.1 hts
        obtain ⟨decl, c₄, -, hb, hus⟩ := answers_judgeBranches_cons.1 h
        obtain ⟨u, c₁, result, c₂, c₃, hu, hf, hunify, hunify'⟩ := answers_judgeBranch.1 hb
        have h₁ := ht hc hu
        have h₂ := takes_fresh h₁.acyclic hf
        have h₃ := takes_unify h₂.acyclic hunify
        have h₄ := takes_unify h₃.acyclic hunify'
        refine ((((h₁.trans h₂).trans h₃).trans h₄).trans (ih hts h₄.acyclic hus)).mono ?_
        rw [Term.usageAll, List.length_cons]
        omega

theorem bounded_lam {x : Name} {dom : Option Ty} (ht : Bounded ctx t) :
    Bounded ctx (.lam x dom t) := by
  intro c mode ty c' hc h
  have body {d co : Ty} {c₁ c₂ : Checker} {mode' : Mode} (hc : c₁.solutions.Acyclic)
      (h : Answers (withLocal x d (judge ctx t mode')) c₁ co c₂) : Takes (t.usage ctx) c₁ c₂ := by
    obtain ⟨c₃, hj, rfl⟩ := answers_withLocal.1 h
    have hbody := ht (c := { c₁ with locals := (x, d) :: c₁.locals }) hc hj
    exact ⟨hbody.acyclic, hbody.size⟩
  by_cases harrow : ∃ expected d co, mode = .check expected ∧
    c.solutions.resolve expected = .arrow d co
  · obtain ⟨expected, d, co, rfl, hr⟩ := harrow
    obtain ⟨c₁, co', haccepts, hbody, -⟩ := (answers_judge_lam_check hr).1 h
    have h₁ : Takes 0 c c₁ := by
      cases dom with
      | none =>
        cases (show c = c₁ from haccepts)
        exact .refl hc
      | some written => exact takes_unify hc haccepts.2
    refine (h₁.trans (body h₁.acyclic hbody)).mono ?_
    rw [Term.usage]
    omega
  · have hne (expected d co : Ty) (he : mode = .check expected) : c.solutions.resolve expected ≠
        .arrow d co :=
      fun hr => harrow ⟨expected, d, co, he, hr⟩
    obtain ⟨d, c₁, co, c₂, hsupplies, hbody, hs⟩ := (answers_judge_lam_infer hne).1 h
    have h₁ : Takes 1 c c₁ := by
      cases dom with
      | none => exact takes_fresh hc hsupplies
      | some written =>
        obtain ⟨-, -, rfl⟩ := hsupplies
        exact (Takes.refl hc).mono (Nat.zero_le _)
    have h₂ := body h₁.acyclic hbody
    refine ((h₁.trans h₂).trans (takes_settle h₂.acyclic hs)).mono ?_
    rw [Term.usage]
    omega

theorem bounded_elim {x : Name} {s : Term} (hs : Bounded ctx s) (hts : ∀ t ∈ ts, Bounded ctx t) :
    Bounded ctx (.elim x s ts) := by
  intro c mode ty c' hc h
  obtain ⟨decl, t, c₁, signature, c₂, scrutinee, rest, c₃, c₄, hdecl, hj, -, hcopy, -,
      hu, -, hargs, hsettle⟩ :=
    answers_judge_elim.1 h
  have h₁ := hs hc hj
  have h₂ := takes_freshCopy h₁.acyclic hcopy
  have h₃ := takes_unify h₂.acyclic hu
  have h₄ : Takes (Term.usageAll ctx ts + ts.length) c₃ c₄ := by
    split at hargs
    · exact takes_judgeBranches hts h₃.acyclic hargs
    · exact (takes_checkAll hts h₃.acyclic hargs).mono (Nat.le_add_right _ _)
  refine ((((h₁.trans h₂).trans h₃).trans h₄).trans (takes_settle h₄.acyclic hsettle)).mono ?_
  rw [Term.usage, Context.signatureVars_eliminator hdecl]
  omega

theorem bounded_prim (hts : ∀ t ∈ ts, Bounded ctx t) : Bounded ctx (.prim op ts) := by
  intro c mode ty c' hc h
  obtain ⟨-, hcase⟩ := answers_judge_prim.1 h
  rcases hcase with ⟨a, b, c₁, rfl, rfl, heq, hs⟩ | ⟨i, t, e, c₁, found, c₂, found', c₃,
    rfl, rfl, hi, ht, he, hs⟩ |
    ⟨c₁, -, -, hops, hs⟩
  · obtain ⟨l, c₂, r, c₃, c₄, hl, hr, hu, hcase⟩ := answers_checkEquality.1 heq
    have ha : Bounded ctx a := hts a (by simp)
    have hb : Bounded ctx b := hts b (by simp)
    have h₂ := ha.inspect hc hl
    have h₃ := hb.inspect h₂.acyclic hr
    have h₄ := takes_unify h₃.acyclic hu
    have hsame : c₁.solutions = c₄.solutions := by
      rcases hcase with ⟨p, -, rfl⟩ | ⟨i, -, rfl⟩ <;> rfl
    have h₁ : Takes 0 c₄ c₁ := ⟨hsame ▸ h₄.acyclic, by rw [hsame]; exact Nat.le_refl _⟩
    refine ((((h₂.trans h₃).trans h₄).trans h₁).trans (takes_settle h₁.acyclic hs)).mono ?_
    simp only [Term.usage, Term.usageAll]
    omega
  · have hi' : Bounded ctx i := hts i (by simp)
    have h₁ := hi'.checkOperand hc hi
    have h₂ := hts t (by simp) h₁.acyclic ht
    have h₃ := hts e (by simp) h₂.acyclic he
    refine (((h₁.trans h₂).trans h₃).trans (takes_settle h₃.acyclic hs)).mono ?_
    simp only [Term.usage, Term.usageAll]
    omega
  · have h₁ := takes_checkOperands hts hc hops
    exact h₁.trans (takes_settle h₁.acyclic hs)

theorem bounded (ctx : Context) (t : Term) : Bounded ctx t := by
  induction t with
  | var x =>
    intro c mode ty c' hc h
    obtain ⟨t, -, hs⟩ := answers_judge_var.1 h
    exact takes_settle hc hs
  | lit l =>
    intro c mode ty c' hc h
    exact takes_settle hc (answers_judge_lit.1 h)
  | app f a ihf iha =>
    intro c mode ty c' hc h
    obtain ⟨t, c₁, d, co, c₂, d', c₃, hf, hft, ha, hs⟩ := answers_judge_app.1 h
    have h₁ := ihf hc hf
    have h₂ := takes_functionType h₁.acyclic hft
    have h₃ := iha h₂.acyclic ha
    refine (((h₁.trans h₂).trans h₃).trans (takes_settle h₃.acyclic hs)).mono ?_
    rw [Term.usage]
    omega
  | lam x dom b ih => exact bounded_lam ih
  | ann t u ih =>
    intro c mode ty c' hc h
    obtain ⟨-, d, c₁, hj, hs⟩ := answers_judge_ann.1 h
    have h₁ := ih hc hj
    exact h₁.trans (takes_settle h₁.acyclic hs)
  | ctor x ts ih =>
    intro c mode ty c' hc h
    obtain ⟨decl, signature, c₁, c₂, hdecl, hcopy, -, hargs, hs⟩ := answers_judge_ctor.1 h
    have h₁ := takes_freshCopy hc hcopy
    have h₂ := takes_checkAll ih h₁.acyclic hargs
    refine ((h₁.trans h₂).trans (takes_settle h₂.acyclic hs)).mono ?_
    rw [Term.usage, Context.signatureVars_constructor hdecl]
    omega
  | elim x s ts ihs ih => exact bounded_elim ihs ih
  | prim op ts ih => exact bounded_prim ih
  | tuple ts ih =>
    intro c mode ty c' hc h
    obtain ⟨found, c₁, hj, hs⟩ := answers_judge_tuple.1 h
    have h₁ := takes_inferAll ih hc hj
    exact h₁.trans (takes_settle h₁.acyclic hs)
  | proj t i ih =>
    intro c mode ty c' hc h
    obtain ⟨found, c₁, elems, elem, hj, -, -, -, hs⟩ := answers_judge_proj.1 h
    have h₁ := ih hc hj
    exact h₁.trans (takes_settle h₁.acyclic hs)

theorem metavars_infer_le (h : inferType ctx t = .ok ty) :
    (infer ctx t).metavars ≤ t.usage ctx := by
  obtain ⟨u, c', hj, -⟩ := inferType_eq_ok_iff.1 h
  have hsize : c'.solutions.size ≤ 0 + t.usage ctx :=
    (bounded ctx t (valid_initial ctx).acyclic hj).size
  have hcount : (infer ctx t).metavars = c'.solutions.size := metavars_eq hj
  omega

theorem metavarsUnder_le {assumptions : List (Name × Ty)} {expected : Ty}
    (h : Validation.checkUnder ctx assumptions t expected = .ok ()) :
    metavarsUnder ctx assumptions t expected ≤ t.usage ctx := by
  obtain ⟨u, c', hj, -⟩ := checkUnder_eq_ok_iff.1 h
  have hacyclic : (knowing assumptions).solutions.Acyclic := (valid_initial ctx).acyclic
  have hsize : c'.solutions.size ≤ 0 + t.usage ctx := (bounded ctx t hacyclic hj).size
  have hcount := metavarsUnder_eq hj
  omega

end Checker

end ClosedTypes
