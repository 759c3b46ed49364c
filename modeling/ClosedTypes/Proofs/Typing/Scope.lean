import ClosedTypes.Proofs.Term.Uses
import ClosedTypes.Proofs.Typing.Inference
/-!
What a term must be like for the checker to come to an answer about it at all: its free variables
are assumed, its annotations may be written, and its operations are declared and have all their
arguments.
-/

namespace ClosedTypes

def Context.Admits (ctx : Context) : Use → Prop
  | .constructor c n => ∃ d, ctx.constructor c = .ok d ∧ d.fields.length = n
  | .eliminator e n => ∃ d, ctx.eliminator e = .ok d ∧ d.rest.length = n

namespace Checker

variable {ctx : Context} {c c' : Checker} {t u : Term} {ts : List Term} {ty : Ty} {mode : Mode}
  {locals : List (Name × Ty)}
  {x : Name}

structure InScope (ctx : Context) (locals : List (Name × Ty)) (t : Term) : Prop where
  free : ∀ x ∈ t.free, ∃ p ∈ locals, p.1 = x
  annotations : ∀ ty ∈ t.annotations, checkWritten ctx ty = .ok ()
  uses : t.Over ctx.Admits

/-- Any answer about `t` shows that `t` is in scope, and leaves the local assumptions as they
were. -/
def Scoped (ctx : Context) (t : Term) : Prop :=
  ∀ {c mode ty c'}, Answers (judge ctx t mode) c ty c' → c'.locals = c.locals ∧
    InScope ctx c.locals t

theorem locals_of_unify {a b : Ty} {r : Bool} (h : Answers (unify a b) c r c') :
    c'.locals = c.locals := by
  obtain ⟨-, rfl⟩ := answers_unify.1 h
  rfl

theorem locals_of_fresh (h : Answers fresh c ty c') : c'.locals = c.locals := by
  obtain ⟨-, rfl⟩ := answers_fresh.1 h
  rfl

theorem locals_of_settle {found : Ty} (h : Answers (settle t found mode) c ty c') :
    c'.locals = c.locals := by
  cases mode with
  | infer => rw [(answers_settle_infer.1 h).2]
  | check expected => exact locals_of_unify (answers_settle_check.1 h).2

theorem locals_of_functionType {d co : Ty} (h : Answers (functionType t ty) c (d, co) c') :
    c'.locals = c.locals := by
  rcases answers_functionType.1 h with ⟨-, rfl⟩ | ⟨i, c₁, c₂, r, -, hd, hc, hu⟩
  · rfl
  · rw [locals_of_unify hu, locals_of_fresh hc, locals_of_fresh hd]

theorem of_freshCopy {signature : Ty} (h : Answers (freshCopy signature) c ty c') :
    c'.locals = c.locals ∧ ∃ m, ty = signature.subst m ∧ OntoMetavars m := by
  have all (xs : List Name) : ∀ c bs, Answers (freshAll xs) c bs c' → c'.locals = c.locals ∧
      ∀ b ∈ bs, ∃ i, b.2 = Ty.metavar i := by
    induction xs with
    | nil =>
      intro c bs h
      obtain ⟨rfl, rfl⟩ := answers_pure.1 h
      exact ⟨rfl, nofun⟩
    | cons x xs ih =>
      intro c bs h
      simp only [freshAll, answers_bind, answers_pure] at h
      obtain ⟨t, c₁, ht, bs', _, hbs, rfl, rfl⟩ := h
      obtain ⟨hl, hall⟩ := ih c₁ bs' hbs
      exact ⟨hl.trans (locals_of_fresh ht), List.forall_mem_cons.2
        ⟨⟨_, (answers_fresh.1 ht).1.symm⟩, hall⟩⟩
  simp only [freshCopy, answers_bind, answers_pure] at h
  obtain ⟨bs, _, hbs, rfl, rfl⟩ := h
  obtain ⟨hl, hall⟩ := all _ c bs hbs
  exact ⟨hl, _, rfl, fun x u hu => hall _ (Index.mem_of_find?_ofList hu)⟩

theorem scoped_inferAll {types : List Ty} (hts : ∀ t ∈ ts, Scoped ctx t)
    (h : Answers (inferAll ctx ts) c types c') :
    c'.locals = c.locals ∧ ∀ t ∈ ts, InScope ctx c.locals t := by
  induction ts generalizing c types with
  | nil => exact ⟨by rw [(answers_inferAll_nil.1 h).2], nofun⟩
  | cons t ts ih =>
    obtain ⟨ht, hts⟩ := List.forall_mem_cons.1 hts
    obtain ⟨u, c₁, us, hu, hus, -⟩ := answers_inferAll_cons.1 h
    obtain ⟨hl, ht⟩ := ht hu
    obtain ⟨hl', hts⟩ := ih hts hus
    rw [hl] at hl' hts
    exact ⟨hl', List.forall_mem_cons.2 ⟨ht, hts⟩⟩

theorem scoped_checkAll {ds : List Ty} (hlen : ds.length = ts.length) (hts : ∀ t ∈ ts, Scoped ctx t)
    (h : Answers (checkAll ctx ts ds) c () c') :
    c'.locals = c.locals ∧ ∀ t ∈ ts, InScope ctx c.locals t := by
  induction ts generalizing c ds with
  | nil =>
    cases List.length_eq_zero_iff.1 hlen
    exact ⟨by rw [(answers_pure.1 h).2], nofun⟩
  | cons t ts ih =>
    cases ds with
    | nil => cases hlen
    | cons d ds =>
      obtain ⟨ht, hts⟩ := List.forall_mem_cons.1 hts
      obtain ⟨u, c₁, hu, hus⟩ := answers_checkAll_cons.1 h
      obtain ⟨hl, ht⟩ := ht hu
      obtain ⟨hl', hts⟩ := ih (Nat.succ.inj hlen) hts hus
      rw [hl] at hl' hts
      exact ⟨hl', List.forall_mem_cons.2 ⟨ht, hts⟩⟩

theorem scoped_checkOperand {op : Operator} (ht : Scoped ctx t)
    (h : Answers (checkOperand ctx op t (judge ctx t .infer)) c () c') :
    c'.locals = c.locals ∧ InScope ctx c.locals t := by
  obtain ⟨found, c₁, hi, hu⟩ := answers_checkOperand.1 h
  obtain ⟨v, hv, -, -⟩ := answers_inspect.1 hi
  obtain ⟨hl, ht⟩ := ht hv
  exact ⟨(locals_of_unify hu).trans hl, ht⟩

theorem scoped_checkOperands {op : Operator} (hts : ∀ t ∈ ts, Scoped ctx t)
    (h : Answers (checkOperands ctx op ts) c () c') :
    c'.locals = c.locals ∧ ∀ t ∈ ts, InScope ctx c.locals t := by
  induction ts generalizing c with
  | nil => exact ⟨by rw [(answers_pure.1 h).2], nofun⟩
  | cons t ts ih =>
    obtain ⟨ht, hts⟩ := List.forall_mem_cons.1 hts
    obtain ⟨c₁, hu, hus⟩ := answers_checkOperands_cons.1 h
    obtain ⟨hl, ht⟩ := scoped_checkOperand ht hu
    obtain ⟨hl', hts⟩ := ih hts hus
    rw [hl] at hl' hts
    exact ⟨hl', List.forall_mem_cons.2 ⟨ht, hts⟩⟩

theorem scoped_judgeBranches {e : Name} {motive : Ty} {i : Nat} {ds : List Ty} {cs : List Name}
    (hlen : ds.length = ts.length)
    (hlen' : cs.length = ts.length) (hts : ∀ t ∈ ts, Scoped ctx t)
    (h : Answers (judgeBranches ctx e motive i ts ds cs) c () c') :
    c'.locals = c.locals ∧ ∀ t ∈ ts, InScope ctx c.locals t := by
  induction ts generalizing c ds cs i with
  | nil =>
    cases List.length_eq_zero_iff.1 hlen
    cases List.length_eq_zero_iff.1 hlen'
    exact ⟨by rw [(answers_pure.1 h).2], nofun⟩
  | cons t ts ih =>
    cases ds with
    | nil => cases hlen
    | cons d ds =>
      cases cs with
      | nil => cases hlen'
      | cons x cs =>
        obtain ⟨ht, hts⟩ := List.forall_mem_cons.1 hts
        obtain ⟨decl, c₄, -, hb, hus⟩ := answers_judgeBranches_cons.1 h
        obtain ⟨u, c₁, result, c₂, c₃, hu, hf, hunify, hunify'⟩ := answers_judgeBranch.1 hb
        obtain ⟨hl, ht⟩ := ht hu
        have hl₄ : c₄.locals = c.locals := by
          rw [locals_of_unify hunify', locals_of_unify hunify, locals_of_fresh hf, hl]
        obtain ⟨hl', hts⟩ := ih (Nat.succ.inj hlen) (Nat.succ.inj hlen') hts hus
        rw [hl₄] at hl' hts
        exact ⟨hl', List.forall_mem_cons.2 ⟨ht, hts⟩⟩

section

variable (h : ∀ t ∈ ts, InScope ctx locals t)

include h

theorem inScope_tuple : InScope ctx locals (.tuple ts) where
  free y hy := by
    obtain ⟨t, ht, hy⟩ := Term.mem_freeAll.1 hy
    exact (h t ht).free y hy
  annotations ty hty := by
    obtain ⟨t, ht, hty⟩ := Term.mem_annotationsAll.1 hty
    exact (h t ht).annotations ty hty
  uses := Term.over_tuple.2 fun t ht => (h t ht).uses

theorem inScope_ctor (hx : ctx.Admits (.constructor x ts.length)) :
    InScope ctx locals (.ctor x ts) :=
  ⟨(inScope_tuple h).free, (inScope_tuple h).annotations,
    Term.over_ctor.2 ⟨hx, fun t ht => (h t ht).uses⟩⟩

theorem inScope_prim {op : Operator} : InScope ctx locals (.prim op ts) :=
  ⟨(inScope_tuple h).free, (inScope_tuple h).annotations, (inScope_tuple h).uses⟩

theorem inScope_elim {s : Term} (hx : ctx.Admits (.eliminator x ts.length))
    (hs : InScope ctx locals s) :
    InScope ctx locals (.elim x s ts) where
  free y hy := (List.mem_append.1 hy).elim (hs.free y) ((inScope_tuple h).free y)
  annotations ty hty :=
    (List.mem_append.1 hty).elim (hs.annotations ty) ((inScope_tuple h).annotations ty)
  uses := Term.over_elim.2 ⟨hx, hs.uses, fun t ht => (h t ht).uses⟩

end

theorem inScope_app {f a : Term} (hf : InScope ctx locals f) (ha : InScope ctx locals a) :
    InScope ctx locals (.app f a) where
  free y hy := (List.mem_append.1 hy).elim (hf.free y) (ha.free y)
  annotations ty hty := (List.mem_append.1 hty).elim (hf.annotations ty) (ha.annotations ty)
  uses := Term.over_app.2 ⟨hf.uses, ha.uses⟩

theorem inScope_lam {dom : Option Ty} {d : Ty} (hdom : ∀ ty ∈ dom, checkWritten ctx ty = .ok ())
    (ht : InScope ctx ((x, d) :: locals) t) : InScope ctx locals (.lam x dom t) where
  free y hy := by
    obtain ⟨hy, hne⟩ := List.mem_filter.1 hy
    obtain ⟨p, hp, rfl⟩ := ht.free y hy
    rcases List.mem_cons.1 hp with rfl | hp
    · simp at hne
    · exact ⟨p, hp, rfl⟩
  annotations ty hty := by
    rcases List.mem_append.1 hty with hty | hty
    · exact hdom ty (Option.mem_toList.1 hty)
    · exact ht.annotations ty hty
  uses := ht.uses

theorem scoped_lam {dom : Option Ty} (ht : Scoped ctx t) : Scoped ctx (.lam x dom t) := by
  intro c mode ty c' h
  have body {d c₁ co mode' c₂} (hl : c₁.locals = c.locals)
      (hdom : ∀ ty ∈ dom, checkWritten ctx ty = .ok ())
      (h : Answers (withLocal x d (judge ctx t mode')) c₁ co c₂) :
      c₂.locals = c.locals ∧ InScope ctx c.locals (.lam x dom t) := by
    obtain ⟨c₃, hj, rfl⟩ := answers_withLocal.1 h
    obtain ⟨hl₃, ht⟩ := ht hj
    rw [← hl]
    exact ⟨congrArg List.tail hl₃, inScope_lam hdom ht⟩
  by_cases harrow : ∃ expected d co, mode = .check expected ∧
    c.solutions.resolve expected = .arrow d co
  · obtain ⟨expected, d, co, rfl, hr⟩ := harrow
    obtain ⟨c₁, co', hacc, hbody, -⟩ := (answers_judge_lam_check hr).1 h
    cases dom with
    | none => exact body (congrArg locals (show c = c₁ from hacc).symm) nofun hbody
    | some written => exact body (locals_of_unify hacc.2) (by rintro _ ⟨⟩; exact hacc.1) hbody
  · have hne (expected d co : Ty) (he : mode = .check expected) : c.solutions.resolve expected ≠
        .arrow d co :=
      fun hr => harrow ⟨expected, d, co, he, hr⟩
    obtain ⟨d, c₁, co, c₂, hsup, hbody, hs⟩ := (answers_judge_lam_infer hne).1 h
    rw [locals_of_settle hs]
    cases dom with
    | none => exact body (locals_of_fresh hsup) nofun hbody
    | some written =>
      exact body (congrArg Checker.locals hsup.2.2.symm) (by rintro _ ⟨⟩; exact hsup.1) hbody

theorem scoped_ctor (ih : ∀ t ∈ ts, Scoped ctx t) : Scoped ctx (.ctor x ts) := by
  intro c mode ty c' h
  obtain ⟨decl, signature, c₁, c₂, hdecl, hcopy, hlen, hargs, hs⟩ := answers_judge_ctor.1 h
  obtain ⟨hl, hts⟩ := scoped_checkAll hlen ih hargs
  obtain ⟨hl₁, m, rfl, hm⟩ := of_freshCopy hcopy
  rw [hl₁] at hl hts
  have hfields : decl.fields.length = ts.length := by
    have hdoms : (decl.signature.subst m).doms = decl.signature.doms.map (·.subst m) :=
      congrArg Prod.fst (hm.telescope decl.signature)
    rw [← hlen, hdoms, List.length_map, Constructor.fields]
  exact ⟨(locals_of_settle hs).trans hl, inScope_ctor hts ⟨decl, hdecl, hfields⟩⟩

theorem scoped_elim (hctx : ctx.Shaped) {s : Term} (ihs : Scoped ctx s)
    (ih : ∀ t ∈ ts, Scoped ctx t) : Scoped ctx (.elim x s ts) := by
  intro c mode ty c' h
  obtain ⟨decl, t, c₁, signature, c₂, scrutinee, rest, c₃, c₄, hdecl, hj, -, hcopy,
      hdoms, hu, hlen, hargs, hsettle⟩ :=
    answers_judge_elim.1 h
  obtain ⟨params, hshape⟩ := hctx.eliminator hdecl
  obtain ⟨hl₁, hs⟩ := ihs hj
  obtain ⟨hl₂, m, rfl, hm⟩ := of_freshCopy hcopy
  have hrest : rest.length = decl.rest.length := by
    have hsplit : decl.signature.doms.map (·.subst m) = scrutinee :: rest :=
      (congrArg Prod.fst (hm.telescope decl.signature)).symm.trans hdoms
    rw [show rest = (decl.signature.doms.map (·.subst m)).tail by rw [hsplit]; rfl]
    simp [Eliminator.rest]
  have hl₃ : c₃.locals = c.locals := by rw [locals_of_unify hu, hl₂, hl₁]
  have hts : c₄.locals = c₃.locals ∧ ∀ t ∈ ts, InScope ctx c₃.locals t := by
    cases hmotive : decl.motive with
    | none =>
      simp only [Eliminator.isCaseAnalysis, hmotive, Option.isSome_none, Bool.false_eq_true,
        if_false] at hargs
      exact scoped_checkAll hlen ih hargs
    | some motive =>
      simp only [Eliminator.isCaseAnalysis, hmotive, Option.isSome_some, if_true] at hargs
      have hcount := (hshape.case motive hmotive).length
      exact scoped_judgeBranches hlen (by rw [← hcount, ← hrest, hlen]) ih hargs
  rw [hl₃] at hts
  exact ⟨(locals_of_settle hsettle).trans hts.1,
    inScope_elim hts.2 ⟨decl, hdecl, hrest.symm.trans hlen⟩ hs⟩

theorem scoped_prim {op : Operator} (ih : ∀ t ∈ ts, Scoped ctx t) :
    Scoped ctx (.prim op ts) := by
  intro c mode ty c' h
  obtain ⟨-, hcase⟩ := answers_judge_prim.1 h
  rcases hcase with ⟨a, b, c₁, rfl, rfl, heq, hs⟩ | ⟨i, t, e, c₁, found, c₂, found',
    c₃, rfl, rfl, hi, ht, he, hs⟩ |
    ⟨c₁, -, -, hops, hs⟩
  · obtain ⟨l, c₂, r, c₃, c₄, hl, hr, hu, hcase⟩ := answers_checkEquality.1 heq
    obtain ⟨u, hju, -⟩ := answers_inspect.1 hl
    obtain ⟨v, hjv, -⟩ := answers_inspect.1 hr
    obtain ⟨hl₂, ha⟩ := ih a (by simp) hju
    obtain ⟨hl₃, hb⟩ := ih b (by simp) hjv
    have hl₁ : c₁.locals = c₄.locals := by rcases hcase with ⟨p, -, rfl⟩ | ⟨i, -, rfl⟩ <;> rfl
    rw [hl₂] at hl₃ hb
    refine ⟨by rw [locals_of_settle hs, hl₁, locals_of_unify hu, hl₃], inScope_prim ?_⟩
    simpa using ⟨ha, hb⟩
  · obtain ⟨hl₁, hi⟩ := scoped_checkOperand (ih i (by simp)) hi
    obtain ⟨hl₂, ht⟩ := ih t (by simp) ht
    obtain ⟨hl₃, he⟩ := ih e (by simp) he
    rw [hl₁] at hl₂ ht
    rw [hl₂] at hl₃ he
    refine ⟨by rw [locals_of_settle hs, hl₃], inScope_prim ?_⟩
    simpa using ⟨hi, ht, he⟩
  · obtain ⟨hl, hts⟩ := scoped_checkOperands ih hops
    exact ⟨(locals_of_settle hs).trans hl, inScope_prim hts⟩

theorem scoped_of_shaped (hctx : ctx.Shaped) (t : Term) : Scoped ctx t := by
  induction t with
  | var x =>
    intro c mode ty c' h
    obtain ⟨t, ht, hs⟩ := answers_judge_var.1 h
    obtain ⟨p, hp, -⟩ := Option.map_eq_some_iff.1 ht
    refine ⟨locals_of_settle hs, fun y hy => ?_, List.forall_mem_nil _, Term.over_var⟩
    cases List.mem_singleton.1 hy
    exact ⟨p, List.mem_of_find?_eq_some hp, by simpa using List.find?_some hp⟩
  | app f a ihf iha =>
    intro c mode ty c' h
    obtain ⟨t, c₁, d, co, c₂, d', c₃, hf, hft, ha, hs⟩ := answers_judge_app.1 h
    obtain ⟨hl₁, hf⟩ := ihf hf
    obtain ⟨hl₃, ha⟩ := iha ha
    rw [locals_of_functionType hft, hl₁] at hl₃ ha
    exact ⟨(locals_of_settle hs).trans hl₃, inScope_app hf ha⟩
  | lam x dom b ih => exact scoped_lam ih
  | ann t u ih =>
    intro c mode ty c' h
    obtain ⟨hu, d, c₁, hj, hs⟩ := answers_judge_ann.1 h
    obtain ⟨hl, ht⟩ := ih hj
    refine ⟨(locals_of_settle hs).trans hl, ht.free, fun v hv => ?_, ht.uses⟩
    rcases List.mem_append.1 hv with hv | hv
    · exact ht.annotations v hv
    · cases List.mem_singleton.1 hv
      exact hu
  | ctor x ts ih => exact scoped_ctor ih
  | elim x s ts ihs ih => exact scoped_elim hctx ihs ih
  | lit l =>
    intro c mode ty c' h
    exact ⟨locals_of_settle (answers_judge_lit.1 h), List.forall_mem_nil _, List.forall_mem_nil _,
      Term.over_lit⟩
  | prim op ts ih => exact scoped_prim ih
  | tuple ts ih =>
    intro c mode ty c' h
    obtain ⟨found, c₁, hj, hs⟩ := answers_judge_tuple.1 h
    obtain ⟨hl, hts⟩ := scoped_inferAll ih hj
    exact ⟨(locals_of_settle hs).trans hl, inScope_tuple hts⟩
  | proj t i ih =>
    intro c mode ty c' h
    obtain ⟨found, c₁, elems, elem, hj, -, -, -, hs⟩ := answers_judge_proj.1 h
    obtain ⟨hl, ht⟩ := ih hj
    exact ⟨(locals_of_settle hs).trans hl, ht.free, ht.annotations, ht.uses⟩

theorem inScope_of_checkUnder {assumptions : List (Name × Ty)} {expected : Ty} (hctx : ctx.Shaped)
    (h : Validation.checkUnder ctx assumptions t expected = .ok ()) :
    InScope ctx assumptions.reverse t := by
  obtain ⟨u, c', hj, -⟩ := checkUnder_eq_ok_iff.1 h
  exact (scoped_of_shaped hctx t hj).2

theorem inScope_of_inferType (hctx : ctx.Shaped) (h : inferType ctx t = .ok ty) :
    InScope ctx [] t := by
  obtain ⟨u, c', hj, -⟩ := inferType_eq_ok_iff.1 h
  exact (scoped_of_shaped hctx t hj).2

end Checker

end ClosedTypes
