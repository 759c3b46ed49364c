import ClosedTypes.Proofs.Answers
import ClosedTypes.Typing.Checker
/-!
Runs of the checker that come to an answer, taken apart step by step.
-/

namespace ClosedTypes.Checker

variable {α β : Type} {c c' : Checker} {a : α} {b : β}

@[simp] theorem answers_zonk {t u : Ty} :
    Answers (zonk t) c u c' ↔ c.solutions.zonk t = u ∧ c = c' :=
  answers_iff_of_run_eq rfl

@[simp] theorem answers_resolve {t u : Ty} :
    Answers (resolve t) c u c' ↔ c.solutions.resolve t = u ∧ c = c' :=
  answers_iff_of_run_eq rfl

@[simp] theorem answers_fresh {t : Ty} :
    Answers fresh c t c' ↔ c.solutions.fresh.1 = t ∧
    { c with solutions := c.solutions.fresh.2 } = c' :=
  answers_iff_of_run_eq rfl

theorem answers_unify {t u : Ty} {r : Bool} :
    Answers (unify t u) c r c' ↔
      (c.solutions.unify t u).1 = r ∧ { c with solutions := (c.solutions.unify t u).2 } = c' :=
  answers_iff_of_run_eq rfl

@[simp] theorem answers_localType? {x : Name} {t : Option Ty} :
    Answers (localType? x) c t c' ↔ (c.locals.find? (·.1 = x)).map Prod.snd = t ∧ c = c' :=
  answers_iff_of_run_eq rfl

@[simp] theorem answers_push {x : Name} {t : Ty} {u : Unit} :
    Answers (push x t) c u c' ↔ { c with locals := (x, t) :: c.locals } = c' :=
  (answers_iff_of_run_eq rfl).trans (and_iff_right rfl)

@[simp] theorem answers_withLocal {x : Name} {t : Ty} {m : Check α} :
    Answers (withLocal x t m) c a c' ↔
      ∃ c₁, Answers m { c with locals := (x, t) :: c.locals } a c₁ ∧
      { c₁ with locals := c₁.locals.tail } = c' := by
  have step : Check.apply (withLocal x t m) c =
    ((m.apply { c with locals := (x, t) :: c.locals }).1,
      { (m.apply { c with locals := (x, t) :: c.locals }).2 with
        locals := (m.apply { c with locals := (x, t) :: c.locals }).2.locals.tail }) := rfl
  show Check.apply (withLocal x t m) c = (.ok a, c') ↔
    ∃ c₁, m.apply { c with locals := (x, t) :: c.locals } = (.ok a, c₁) ∧ _
  rw [step]
  obtain ⟨r, c₁⟩ := m.apply { c with locals := (x, t) :: c.locals }
  simp [and_assoc]

@[simp] theorem not_answers_mismatch {t : Term} {expected found : Ty} :
    ¬Answers (mismatch t expected found) c a c' := by
  simp [mismatch]

variable {ctx : Context} {mode : Mode} {ty : Ty}

@[simp] theorem answers_settle_infer {t : Term} {found : Ty} :
    Answers (settle t found .infer) c ty c' ↔ found = ty ∧ c = c' :=
  answers_pure

@[simp] theorem answers_settle_check {t : Term} {found expected : Ty} :
    Answers (settle t found (.check expected)) c ty c' ↔ found = ty ∧
    Answers (unify found expected) c true c' := by
  simp only [settle, answers_bind, answers_ite, answers_pure, not_answers_mismatch,
    and_false, or_false]
  constructor
  · rintro ⟨r, c₁, h, rfl, rfl, rfl⟩
    exact ⟨rfl, h⟩
  · rintro ⟨rfl, h⟩
    exact ⟨_, _, h, rfl, rfl, rfl⟩

theorem answers_functionType {f : Term} {t d co : Ty} :
    Answers (functionType f t) c (d, co) c' ↔
      c.solutions.resolve t = .arrow d co ∧ c = c' ∨
        ∃ i c₁ c₂ r, c.solutions.resolve t = .metavar i ∧ Answers fresh c d c₁ ∧
        Answers fresh c₁ co c₂ ∧
          Answers (unify (.metavar i) (.arrow d co)) c₂ r c' := by
  simp only [functionType, answers_bind, answers_resolve]
  constructor
  · rintro ⟨u, _, ⟨rfl, rfl⟩, h⟩
    cases hu : c.solutions.resolve t with
    | arrow d' co' =>
      simp only [hu, answers_pure, Prod.mk.injEq] at h
      obtain ⟨⟨rfl, rfl⟩, rfl⟩ := h
      exact .inl ⟨rfl, rfl⟩
    | metavar i =>
      simp only [hu, answers_bind, answers_pure, Prod.mk.injEq] at h
      obtain ⟨_, c₁, hd, _, c₂, hc, r, _, hr, ⟨rfl, rfl⟩, rfl⟩ := h
      exact .inr ⟨i, c₁, c₂, r, rfl, hd, hc, hr⟩
    | _ => simp [hu] at h
  · rintro (⟨hu, rfl⟩ | ⟨i, c₁, c₂, r, hu, hd, hc, hr⟩)
    · exact ⟨_, _, ⟨hu, rfl⟩, answers_pure.2 ⟨rfl, rfl⟩⟩
    · refine ⟨_, _, ⟨hu, rfl⟩, ?_⟩
      simp only [answers_bind]
      exact ⟨d, c₁, hd, co, c₂, hc, r, c', hr, answers_pure.2 ⟨rfl, rfl⟩⟩

theorem answers_inspect {op : Operator} {operand : Check Ty} :
    Answers (inspect ctx op operand) c ty c' ↔
      ∃ t, Answers operand c t c' ∧ c'.solutions.zonk t = ty ∧
      Barrier.permitPrimitive ctx op ty = .ok () := by
  simp only [inspect, answers_bind, answers_zonk, answers_lift, answers_pure]
  constructor
  · rintro ⟨t, _, ht, u, _, ⟨hu, rfl⟩, _, _, ⟨hp, rfl⟩, rfl, rfl⟩
    exact ⟨t, ht, hu, hp⟩
  · rintro ⟨t, ht, hu, hp⟩
    exact ⟨t, c', ht, ty, c', ⟨hu, rfl⟩, (), c', ⟨hp, rfl⟩, rfl, rfl⟩

theorem answers_unify_bind {t u : Ty} {m m' : Check β} (hm : ∀ c b c', ¬Answers m' c b c') :
    Answers (unify t u >>= fun r => if r = true then m else m') c b c' ↔
      ∃ c₁, Answers (unify t u) c true c₁ ∧ Answers m c₁ b c' := by
  simp only [answers_bind, answers_ite, hm, and_false, or_false]
  constructor
  · rintro ⟨r, c₁, h, rfl, hm⟩
    exact ⟨c₁, h, hm⟩
  · rintro ⟨c₁, h, hm⟩
    exact ⟨true, c₁, h, rfl, hm⟩

theorem answers_checkOperand {op : Operator} {t : Term} {operand : Check Ty} {u : Unit} :
    Answers (checkOperand ctx op t operand) c u c' ↔
      ∃ found c₁, Answers (inspect ctx op operand) c found c₁ ∧
      Answers (unify found (.prim (operandType op))) c₁ true c' := by
  unfold checkOperand
  rw [answers_bind]
  refine exists_congr fun found => exists_congr fun c₁ => and_congr_right fun _ => ?_
  rw [answers_unify_bind fun _ _ _ => not_answers_mismatch]
  simp

theorem answers_checkEquality {s t : Term} {left right : Check Ty} {u : Unit} :
    Answers (checkEquality ctx s t left right) c u c' ↔
      ∃ l c₁ r c₂ c₃, Answers (inspect ctx .eq left) c l c₁ ∧
      Answers (inspect ctx .eq right) c₁ r c₂ ∧
        Answers (unify l r) c₂ true c₃ ∧
          ((∃ p, c₃.solutions.zonk l = .prim p ∧ c₃ = c') ∨
            ∃ i, c₃.solutions.zonk l = .metavar i ∧
            { c₃ with equalities := c₃.equalities ++ [(s, .metavar i)] } = c') := by
  unfold checkEquality
  rw [answers_bind]
  constructor
  · rintro ⟨l, c₁, hl, h⟩
    obtain ⟨r, c₂, hr, h⟩ := answers_bind.1 h
    obtain ⟨c₃, hu, h⟩ := (answers_unify_bind (by simp)).1 h
    rw [answers_bind_of_iff fun _ _ => answers_zonk] at h
    refine ⟨l, c₁, r, c₂, c₃, hl, hr, hu, ?_⟩
    cases hz : c₃.solutions.zonk l with
    | prim p => simpa [hz] using h
    | metavar i => simpa [hz] using h
    | _ => simp [hz] at h
  · rintro ⟨l, c₁, r, c₂, c₃, hl, hr, hu, h⟩
    refine ⟨l, c₁, hl, answers_bind.2 ⟨r, c₂, hr, (answers_unify_bind (by simp)).2 ⟨c₃, hu, ?_⟩⟩⟩
    rw [answers_bind_of_iff fun _ _ => answers_zonk]
    cases hz : c₃.solutions.zonk l with
    | prim p => simpa [hz] using h
    | metavar i => simpa [hz] using h
    | _ => simp [hz] at h

theorem answers_judgeBranch {e : Name} {i : Nat} {branch : Term} {dom motive : Ty} {fields : Nat}
    {found : Check Ty} {u : Unit} :
    Answers (judgeBranch e i branch dom fields motive found) c u c' ↔
      ∃ t c₁ result c₂ c₃, Answers found c t c₁ ∧ Answers fresh c₁ result c₂ ∧
        Answers (unify t (.arrows (leadingDoms fields dom) result)) c₂ true c₃ ∧
        Answers (unify result motive) c₃ true c' := by
  unfold judgeBranch
  rw [answers_bind]
  constructor
  · rintro ⟨t, c₁, ht, h⟩
    obtain ⟨result, c₂, hf, h⟩ := answers_bind.1 h
    obtain ⟨c₃, hu, h⟩ := (answers_unify_bind (by simp)).1 h
    obtain ⟨c₄, hu', h⟩ := (answers_unify_bind (by simp)).1 h
    obtain ⟨-, rfl⟩ := answers_pure.1 h
    exact ⟨t, c₁, result, c₂, c₃, ht, hf, hu, hu'⟩
  · rintro ⟨t, c₁, result, c₂, c₃, ht, hf, hu, hu'⟩
    refine ⟨t, c₁, ht,
      answers_bind.2 ⟨result, c₂, hf, (answers_unify_bind (by simp)).2 ⟨c₃, hu, ?_⟩⟩⟩
    exact (answers_unify_bind (by simp)).2 ⟨c', hu', answers_pure.2 ⟨rfl, rfl⟩⟩

attribute [local simp] judge inferAll checkAll checkOperands judgeBranches

def Accepts (ctx : Context) (dom : Option Ty) (d : Ty) (c c' : Checker) : Prop :=
  match dom with
  | none => c = c'
  | some written => checkWritten ctx written = .ok () ∧ Answers (unify written d) c true c'

def Supplies (ctx : Context) (dom : Option Ty) (d : Ty) (c c' : Checker) : Prop :=
  match dom with
  | none => Answers fresh c d c'
  | some written => checkWritten ctx written = .ok () ∧ written = d ∧ c = c'

variable {t s : Term} {ts args : List Term} {x : Name}

theorem answers_judge_var :
    Answers (judge ctx (.var x) mode) c ty c' ↔
      ∃ t, (c.locals.find? (·.1 = x)).map Prod.snd = some t ∧
      Answers (settle (.var x) t mode) c ty c' := by
  simp only [judge, answers_bind, answers_localType?]
  constructor
  · rintro ⟨t?, _, ⟨h, rfl⟩, hs⟩
    cases t? with
    | none => exact absurd hs not_answers_throw
    | some t => exact ⟨t, h, hs⟩
  · rintro ⟨t, h, hs⟩
    exact ⟨some t, c, ⟨h, rfl⟩, hs⟩

theorem answers_judge_lit {l : Literal} :
    Answers (judge ctx (.lit l) mode) c ty c' ↔
    Answers (settle (.lit l) (.prim l.prim) mode) c ty c' := by
  rw [judge]

@[simp] theorem answers_expectedArrow?_infer {r : Option (Ty × Ty)} :
    Answers (expectedArrow? .infer) c r c' ↔ none = r ∧ c = c' := answers_pure

theorem answers_expectedArrow?_of_arrow {expected d co : Ty} {r : Option (Ty × Ty)}
    (h : c.solutions.resolve expected = .arrow d co) :
    Answers (expectedArrow? (.check expected)) c r c' ↔ some (d, co) = r ∧ c = c' := by
  unfold expectedArrow?
  rw [answers_bind_of_iff fun _ _ => answers_resolve, h]
  exact answers_pure

theorem answers_expectedArrow?_of_ne {r : Option (Ty × Ty)}
    (h : ∀ expected d co, mode = .check expected → c.solutions.resolve expected ≠ .arrow d co) :
    Answers (expectedArrow? mode) c r c' ↔ none = r ∧ c = c' := by
  cases mode with
  | infer => exact answers_pure
  | check expected =>
    unfold expectedArrow?
    rw [answers_bind_of_iff fun _ _ => answers_resolve]
    cases ht : c.solutions.resolve expected with
    | arrow d co => exact absurd ht (h expected d co rfl)
    | _ => exact answers_pure

theorem answers_judge_lam_check {dom : Option Ty} {expected d co : Ty}
    (h : c.solutions.resolve expected = .arrow d co) :
    Answers (judge ctx (.lam x dom t) (.check expected)) c ty c' ↔
      ∃ c₁ co', Accepts ctx dom d c c₁ ∧
      Answers (withLocal x d (judge ctx t (.check co))) c₁ co' c' ∧ .arrow d co' = ty := by
  have body {c₁ : Checker} :
      Answers (do return .arrow d (← withLocal x d (judge ctx t (.check co)))) c₁ ty c' ↔
        ∃ co', Answers (withLocal x d (judge ctx t (.check co))) c₁ co' c' ∧ .arrow d co' = ty := by
    simp only [answers_bind, answers_pure]
    constructor
    · rintro ⟨co', _, h, hty, rfl⟩
      exact ⟨co', h, hty⟩
    · rintro ⟨co', h, hty⟩
      exact ⟨co', c', h, hty, rfl⟩
  rw [judge, answers_bind_of_iff fun _ _ => answers_expectedArrow?_of_arrow h]
  cases dom with
  | none =>
    refine body.trans ?_
    unfold Accepts
    constructor
    · rintro ⟨co', h⟩
      exact ⟨c, co', rfl, h⟩
    · rintro ⟨c₁, co', rfl, h⟩
      exact ⟨co', h⟩
  | some written =>
    refine answers_lift_bind.trans ?_
    constructor
    · rintro ⟨_, hw, h⟩
      obtain ⟨c₁, hu, h⟩ := (answers_unify_bind (by simp)).1 h
      obtain ⟨co', h⟩ := body.1 h
      exact ⟨c₁, co', ⟨hw, hu⟩, h⟩
    · rintro ⟨c₁, co', ⟨hw, hu⟩, h⟩
      exact ⟨(), hw, (answers_unify_bind (by simp)).2 ⟨c₁, hu, body.2 ⟨co', h⟩⟩⟩

theorem answers_judge_lam_infer {dom : Option Ty}
    (h : ∀ expected d co, mode = .check expected → c.solutions.resolve expected ≠ .arrow d co) :
    Answers (judge ctx (.lam x dom t) mode) c ty c' ↔
      ∃ d c₁ co c₂, Supplies ctx dom d c c₁ ∧
      Answers (withLocal x d (judge ctx t .infer)) c₁ co c₂ ∧
        Answers (settle (.lam x dom t) (.arrow d co) mode) c₂ ty c' := by
  rw [judge, answers_bind_of_iff fun _ _ => answers_expectedArrow?_of_ne h]
  cases dom with
  | none => simp only [answers_bind, Supplies, exists_and_left]
  | some written =>
    refine answers_lift_bind.trans ?_
    simp only [answers_bind, answers_pure]
    constructor
    · rintro ⟨_, hw, d, c₁, hd, co, c₂, h⟩
      exact ⟨d, c₁, co, c₂, ⟨hw, hd⟩, h⟩
    · rintro ⟨d, c₁, co, c₂, ⟨hw, hd⟩, h⟩
      exact ⟨(), hw, d, c₁, hd, co, c₂, h⟩

theorem answers_judge_app {f a : Term} :
    Answers (judge ctx (.app f a) mode) c ty c' ↔
      ∃ t c₁ d co c₂ d' c₃, Answers (judge ctx f .infer) c t c₁ ∧
      Answers (functionType f t) c₁ (d, co) c₂ ∧
        Answers (judge ctx a (.check d)) c₂ d' c₃ ∧
        Answers (settle (.app f a) co mode) c₃ ty c' := by
  simp only [judge, answers_bind, answers_adapt]
  constructor
  · rintro ⟨t, c₁, hf, ⟨d, co⟩, c₂, ht, d', c₃, ha, hs⟩
    exact ⟨t, c₁, d, co, c₂, d', c₃, hf, ht, ha, hs⟩
  · rintro ⟨t, c₁, d, co, c₂, d', c₃, hf, ht, ha, hs⟩
    exact ⟨t, c₁, hf, (d, co), c₂, ht, d', c₃, ha, hs⟩

theorem answers_judge_ann {u : Ty} :
    Answers (judge ctx (.ann t u) mode) c ty c' ↔
      checkWritten ctx u = .ok () ∧
        ∃ u' c₁, Answers (judge ctx t (.check u)) c u' c₁ ∧
        Answers (settle (.ann t u) u mode) c₁ ty c' := by
  simp only [judge, answers_bind, answers_lift]
  constructor
  · rintro ⟨_, _, ⟨hu, rfl⟩, h⟩
    exact ⟨hu, h⟩
  · rintro ⟨hu, h⟩
    exact ⟨(), c, ⟨hu, rfl⟩, h⟩

theorem answers_judge_ctor :
    Answers (judge ctx (.ctor x args) mode) c ty c' ↔
      ∃ decl signature c₁ c₂, ctx.constructor x = .ok decl ∧
      Answers (freshCopy decl.signature) c signature c₁ ∧
        signature.doms.length = args.length ∧ Answers (checkAll ctx args signature.doms) c₁ () c₂ ∧
          Answers (settle (.ctor x args) signature.result mode) c₂ ty c' := by
  simp only [judge, answers_bind, answers_lift, answers_ite, not_answers_throw, false_and,
    exists_false, and_false, false_or, ne_eq, Decidable.not_not]
  constructor
  · rintro ⟨decl, _, ⟨hd, rfl⟩, signature, c₁, hs, hl, _, c₂, ha, h⟩
    exact ⟨decl, signature, c₁, c₂, hd, hs, hl, ha, h⟩
  · rintro ⟨decl, signature, c₁, c₂, hd, hs, hl, ha, h⟩
    exact ⟨decl, c, ⟨hd, rfl⟩, signature, c₁, hs, hl, (), c₂, ha, h⟩

theorem answers_judge_elim :
    Answers (judge ctx (.elim x s args) mode) c ty c' ↔
      ∃ decl t c₁ signature c₂ scrutinee rest c₃ c₄, ctx.eliminator x = .ok decl ∧
      Answers (judge ctx s .infer) c t c₁ ∧
        Barrier.permitElimination ctx decl (c₁.solutions.zonk t) = .ok () ∧
        Answers (freshCopy decl.signature) c₁ signature c₂ ∧ signature.doms = scrutinee :: rest ∧
        Answers (unify (c₁.solutions.zonk t) scrutinee) c₂ true c₃ ∧ rest.length = args.length ∧
        Answers (if decl.isCaseAnalysis then judgeBranches ctx x signature.result 0 args rest
          (ctx.constructors decl.owner)
          else checkAll ctx args rest) c₃ () c₄ ∧
        Answers (settle (.elim x s args) signature.result mode) c₄ ty c' := by
  rw [judge]
  constructor
  · intro h
    obtain ⟨decl, hd, h⟩ := answers_lift_bind.1 h
    obtain ⟨t, c₁, ht, h⟩ := answers_bind.1 h
    rw [answers_bind_of_iff fun _ _ => answers_zonk] at h
    obtain ⟨_, hp, h⟩ := answers_lift_bind.1 h
    obtain ⟨signature, c₂, hs, h⟩ := answers_bind.1 h
    cases hdoms : signature.doms with
    | nil => simp [hdoms] at h
    | cons scrutinee rest =>
      simp only [hdoms] at h
      obtain ⟨c₃, hu, h⟩ := (answers_unify_bind (by simp)).1 h
      by_cases hl : rest.length = args.length
      · simp only [ne_eq, hl, not_true_eq_false, if_false] at h
        cases hcase : decl.isCaseAnalysis <;>
          simp only [hcase, if_true, Bool.false_eq_true, if_false] at h
        all_goals
          obtain ⟨c₄, ha, h⟩ := answers_unit_bind.1 h
          exact ⟨decl, t, c₁, signature, c₂, scrutinee, rest, c₃, c₄, hd, ht, hp, hs,
            hdoms, hu, hl, by simpa [hcase] using ha, h⟩
      · simp [hl] at h
  · rintro ⟨decl, t, c₁, signature, c₂, scrutinee, rest, c₃, c₄, hd, ht, hp, hs, hdoms,
      hu, hl, ha, h⟩
    refine answers_lift_bind.2 ⟨decl, hd, answers_bind.2 ⟨t, c₁, ht, ?_⟩⟩
    rw [answers_bind_of_iff fun _ _ => answers_zonk]
    refine answers_lift_bind.2 ⟨(), hp, answers_bind.2 ⟨signature, c₂, hs, ?_⟩⟩
    simp only [hdoms]
    refine (answers_unify_bind (by simp)).2 ⟨c₃, hu, ?_⟩
    simp only [ne_eq, hl, not_true_eq_false, if_false]
    cases hcase : decl.isCaseAnalysis <;> simp only [hcase, if_true, Bool.false_eq_true, if_false]
      at ha ⊢
    all_goals exact answers_unit_bind.2 ⟨c₄, ha, h⟩

theorem answers_judge_prim {op : Operator} :
    Answers (judge ctx (.prim op args) mode) c ty c' ↔ args.length = op.arity ∧
      ((∃ a b c₁, op = .eq ∧ args = [a, b] ∧
          Answers (checkEquality ctx a b (judge ctx a .infer) (judge ctx b .infer)) c () c₁ ∧
          Answers (settle (.prim op args) (.prim .bool) mode) c₁ ty c') ∨
        (∃ i t e c₁ found c₂ found' c₃, op = .ite ∧ args = [i, t, e] ∧
          Answers (checkOperand ctx .ite i (judge ctx i .infer)) c () c₁ ∧
          Answers (judge ctx t .infer) c₁ found c₂ ∧
          Answers (judge ctx e (.check found)) c₂ found' c₃ ∧
          Answers (settle (.prim op args) found mode) c₃ ty c') ∨
        ∃ c₁, op ≠ .eq ∧ op ≠ .ite ∧ Answers (checkOperands ctx op args) c () c₁ ∧
          Answers (settle (.prim op args) (.prim (resultType op)) mode) c₁ ty c') := by
  by_cases heq : op = .eq
  · subst heq
    rcases args with _ | ⟨a, _ | ⟨b, _ | ⟨c, rest⟩⟩⟩
    · simp [judge, Operator.arity]
    · simp [judge, Operator.arity]
    · simp [judge, Operator.arity, exists_unit, and_assoc]
    · simp [judge, Operator.arity]
  by_cases hite : op = .ite
  · subst hite
    rcases args with _ | ⟨i, _ | ⟨t, _ | ⟨e, _ | ⟨u, rest⟩⟩⟩⟩
    · simp [judge, Operator.arity]
    · simp [judge, Operator.arity]
    · simp [judge, Operator.arity]
    · simp [judge, Operator.arity, exists_unit, and_assoc]
    · simp [judge, Operator.arity]
  · rw [judge, answers_ite] <;> simp [heq, hite, exists_unit]

theorem answers_judge_tuple :
    Answers (judge ctx (.tuple ts) mode) c ty c' ↔
      ∃ found c₁, Answers (inferAll ctx ts) c found c₁ ∧
      Answers (settle (.tuple ts) (.tuple found) mode) c₁ ty c' := by
  rw [judge, answers_bind]

theorem answers_judge_proj {i : UInt64} :
    Answers (judge ctx (.proj t i) mode) c ty c' ↔
      ∃ found c₁ elems elem, Answers (judge ctx t .infer) c found c₁ ∧
      c₁.solutions.zonk found = .tuple elems ∧
        Barrier.permitProjection ctx i (.tuple elems) = .ok () ∧ elems[i.toNat]? = some elem ∧
        Answers (settle (.proj t i) elem mode) c₁ ty c' := by
  rw [judge]
  constructor
  · intro h
    obtain ⟨found, c₁, ht, h⟩ := answers_bind.1 h
    rw [answers_bind_of_iff fun _ _ => answers_zonk] at h
    obtain ⟨_, hp, h⟩ := answers_lift_bind.1 h
    cases hz : c₁.solutions.zonk found with
    | tuple elems =>
      cases he : elems[i.toNat]? with
      | none => simp [hz, he] at h
      | some elem => exact ⟨found, c₁, elems, elem, ht, hz, hz ▸ hp, he, by simpa [hz, he] using h⟩
    | _ => simp [hz] at h
  · rintro ⟨found, c₁, elems, elem, ht, hz, hp, he, h⟩
    refine answers_bind.2 ⟨found, c₁, ht, ?_⟩
    rw [answers_bind_of_iff fun _ _ => answers_zonk]
    refine answers_lift_bind.2 ⟨(), hz ▸ hp, ?_⟩
    simpa [hz, he] using h

@[simp] theorem answers_inferAll_nil {types : List Ty} :
    Answers (inferAll ctx []) c types c' ↔ [] = types ∧ c = c' := by
  rw [inferAll]
  exact answers_pure

theorem answers_inferAll_cons {types : List Ty} :
    Answers (inferAll ctx (t :: ts)) c types c' ↔
      ∃ u c₁ us, Answers (judge ctx t .infer) c u c₁ ∧ Answers (inferAll ctx ts) c₁ us c' ∧
      u :: us = types := by
  simp only [inferAll, answers_bind, answers_pure]
  constructor
  · rintro ⟨u, c₁, hu, us, _, hus, rfl, rfl⟩
    exact ⟨u, c₁, us, hu, hus, rfl⟩
  · rintro ⟨u, c₁, us, hu, hus, rfl⟩
    exact ⟨u, c₁, hu, us, c', hus, rfl, rfl⟩

theorem answers_checkAll_cons {d : Ty} {ds : List Ty} {u : Unit} :
    Answers (checkAll ctx (t :: ts) (d :: ds)) c u c' ↔
      ∃ d' c₁, Answers (judge ctx t (.check d)) c d' c₁ ∧ Answers (checkAll ctx ts ds) c₁ u c' := by
  rw [checkAll, answers_bind]

theorem answers_checkOperands_cons {op : Operator} {u : Unit} :
    Answers (checkOperands ctx op (t :: ts)) c u c' ↔
      ∃ c₁, Answers (checkOperand ctx op t (judge ctx t .infer)) c () c₁ ∧
      Answers (checkOperands ctx op ts) c₁ u c' := by
  rw [checkOperands, answers_unit_bind]

theorem answers_judgeBranches_cons {e : Name} {motive d : Ty} {i : Nat} {ds : List Ty}
    {cs : List Name} {u : Unit} :
    Answers (judgeBranches ctx e motive i (t :: ts) (d :: ds) (x :: cs)) c u c' ↔
      ∃ decl c₁, ctx.constructor x = .ok decl ∧
        Answers (judgeBranch e i t d decl.fields.length motive (judge ctx t .infer)) c () c₁ ∧
        Answers (judgeBranches ctx e motive (i + 1) ts ds cs) c₁ u c' := by
  rw [judgeBranches, answers_lift_bind]
  exact exists_congr fun decl => (and_congr_right fun _ => answers_unit_bind).trans
    exists_and_left.symm

end ClosedTypes.Checker
