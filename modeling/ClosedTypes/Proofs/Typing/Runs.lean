import ClosedTypes.Proofs.Term.Free
import ClosedTypes.Proofs.Typing.State
import ClosedTypes.Typing.Reachable
/-!
Runs of the checker that need not come to an answer. A run is made of a few small steps, so what
each of these does to the state the run does: what was known stays known, and no solution leads back
to itself.
-/

namespace ClosedTypes

namespace Checker

variable {α β : Type} {ctx : Context} {c : Checker}

/-- A relation between an earlier and a later state that holds across the steps of which all runs
are made. -/
structure Progress where
  Holds : Checker → Checker → Prop
  refl : ∀ c, Holds c c
  trans : ∀ {c c' c''}, Holds c c' → Holds c' c'' → Holds c c''
  fresh : ∀ c, Holds c { c with solutions := c.solutions.fresh.2 }
  unify : ∀ c a b, Holds c { c with solutions := (c.solutions.unify a b).2 }
  defer : ∀ c p, Holds c { c with equalities := c.equalities ++ [p] }
  /-- What is done under a local assumption that is gone afterwards. -/
  scope : ∀ {c c'} p, Holds { c with locals := p :: c.locals } c' →
    Holds c { c' with locals := c'.locals.tail }

def Progress.growth : Progress where
  Holds := Grows
  refl := .refl
  trans := .trans
  fresh c := ⟨rfl, by show c.solutions.size ≤ c.solutions.fresh.2.size; simp,
    fun i _ h => (Solutions.solution?_fresh c.solutions i).trans h, fun _ h => h⟩
  unify c a b :=
    have h := c.solutions.extends_unify a b
    ⟨rfl, Nat.le_of_eq h.size.symm, h.kept, fun _ h => h⟩
  defer _ _ := ⟨rfl, Nat.le_refl _, fun _ _ h => h, fun _ h => List.mem_append_left _ h⟩
  scope _ := .pop

def Progress.acyclicity : Progress where
  Holds c c' := c.solutions.Acyclic → c'.solutions.Acyclic
  refl _ := id
  trans h h' := h' ∘ h
  fresh _ := Solutions.Acyclic.fresh
  unify c a b h :=
    (Solutions.unified_unify ⟨fun _ _ _ => trivial, fun _ => ⟨trivial, trivial⟩, fun _ _ _ =>
      trivial⟩ h (fun _ _ _ => trivial)
      trivial trivial : Solutions.Unified (fun _ => True) c.solutions a b _).acyclic
  defer _ _ := id
  scope _ := id

/-- Every run of `m` makes the progress `r`, whatever its answer is. The instances go along with
the steps of a run. -/
class Check.Makes (r : Progress) (m : Check α) : Prop where
  makes : ∀ c : Checker, r.Holds c (m.apply c).2

theorem apply_bind_of_ok {m : Check α} {f : α → Check β} {a : α} {c' : Checker}
    (h : m.apply c = (.ok a, c')) :
    Check.apply (m >>= f) c = (f a).apply c' :=
  congrArg (fun r : Except Error α × Checker => (ExceptT.bindCont f r.1).run r.2) h

theorem apply_bind_of_error {m : Check α} {f : α → Check β} {e : Error} {c' : Checker}
    (h : m.apply c = (.error e, c')) :
    Check.apply (m >>= f) c = (.error e, c') :=
  congrArg (fun r : Except Error α × Checker => (ExceptT.bindCont f r.1).run r.2) h

open Check (Makes)

variable {r : Progress}

section

variable {m m' : Check α} {f : α → Check β} {t : Ty}

instance (a : α) : Makes r (pure a : Check α) := ⟨r.refl⟩

instance (e : Error) : Makes r (throw e : Check α) := ⟨r.refl⟩

instance (x : Except Error α) : Makes r (liftM x : Check α) :=
  ⟨fun _ => by cases x <;> exact r.refl _⟩

instance Check.Makes.bind [hm : Makes r m] [hf : ∀ a, Makes r (f a)] : Makes r (m >>= f) where
  makes c := by
    have hc := hm.makes c
    rcases h : m.apply c with ⟨_ | a, c₁⟩ <;> rw [h] at hc
    · rw [apply_bind_of_error h]
      exact hc
    · rw [apply_bind_of_ok h]
      exact r.trans hc ((hf a).makes c₁)

instance {p : Prop} [Decidable p] [Makes r m] [Makes r m'] : Makes r (if p then m else m') := by
  split <;> infer_instance

instance {e : Error → Error} [hm : Makes r m] : Makes r (m.adapt e) := ⟨hm.makes⟩

instance : Makes r (zonk t) := ⟨r.refl⟩

instance : Makes r (resolve t) := ⟨r.refl⟩

instance {x : Name} : Makes r (localType? x) := ⟨r.refl⟩

instance : Makes r fresh := ⟨r.fresh⟩

instance {a b : Ty} : Makes r (unify a b) := ⟨fun c => r.unify c a b⟩

instance {x : Name} [hm : Makes r m] : Makes r (withLocal x t m) :=
  ⟨fun _ => r.scope (x, t) (hm.makes _)⟩

instance {s : Term} : Makes r (modify fun c => { c with equalities := c.equalities ++ [(s, t)] }) :=
  ⟨fun c => r.defer c (s, t)⟩

end

section

variable {t s : Term} {ts : List Term} {ty : Ty} {mode : Mode}

instance {expected found : Ty} : Makes r (mismatch t expected found : Check α) := by
  unfold mismatch
  infer_instance

instance makes_freshAll (xs : List Name) : Makes r (freshAll xs) := by
  induction xs with
  | nil => exact inferInstanceAs (Makes r (pure []))
  | cons x xs ih =>
    rw [freshAll]
    infer_instance

instance {signature : Ty} : Makes r (freshCopy signature) := by
  unfold freshCopy
  infer_instance

instance : Makes r (settle t ty mode) := by
  cases mode <;> unfold settle <;> infer_instance

instance : Makes r (expectedArrow? mode) := by
  have arrow (u : Ty) :
      Makes r (match u with
        | .arrow d c => return some (d, c)
        | _ => return none : Check (Option (Ty × Ty))) := by
    cases u <;> infer_instance
  cases mode <;> unfold expectedArrow? <;> infer_instance

instance : Makes r (functionType t ty) := by
  unfold functionType
  have parts (u : Ty) : Makes r (match u with
      | .arrow d c => return (d, c)
      | .metavar i => do
        let d ← fresh
        let c ← fresh
        let _ ← unify (.metavar i) (.arrow d c)
        return (d, c)
      | _ => do throw (.type (.notAFunction t (← zonk ty))) : Check (Ty × Ty)) := by
    cases u <;> infer_instance
  infer_instance

variable {op : Operator} {operand : Check Ty}

instance [Makes r operand] : Makes r (inspect ctx op operand) := by
  unfold inspect
  infer_instance

instance [Makes r operand] : Makes r (checkOperand ctx op t operand) := by
  unfold checkOperand
  infer_instance

theorem makes_compared (s : Term) (u : Ty) : Makes r (match u with
    | .prim _ => return
    | .metavar i => modify fun c => { c with equalities := c.equalities ++ [(s, .metavar i)] }
    | u => mismatch s (.prim .int) u : Check Unit) := by
  cases u <;> infer_instance

instance {left right : Check Ty} [Makes r left] [Makes r right] :
    Makes r (checkEquality ctx s t left right) := by
  unfold checkEquality
  have (u : Ty) := makes_compared (r := r) s u
  infer_instance

instance {e : Name} {i : Nat} {motive result : Ty} : Makes r (do
    unless ← unify result motive do
      throw (.type (.motive e i (← zonk motive) (← zonk result))) : Check Unit) := inferInstance

instance {e : Name} {i fields : Nat} {dom motive : Ty} [Makes r operand] :
    Makes r (judgeBranch e i t dom fields motive operand) := by
  unfold judgeBranch
  infer_instance

section

variable (h : ∀ t ∈ ts, ∀ mode, Makes r (judge ctx t mode))

include h

theorem makes_inferAll : Makes r (inferAll ctx ts) := by
  induction ts with
  | nil =>
    rw [inferAll]
    infer_instance
  | cons t ts ih =>
    obtain ⟨ht, hts⟩ := List.forall_mem_cons.1 h
    have := ih hts
    rw [inferAll]
    infer_instance

theorem makes_checkAll (ds : List Ty) : Makes r (checkAll ctx ts ds) := by
  induction ts generalizing ds with
  | nil => exact inferInstanceAs (Makes r (pure ()))
  | cons t ts ih =>
    obtain ⟨ht, hts⟩ := List.forall_mem_cons.1 h
    cases ds with
    | nil => exact inferInstanceAs (Makes r (pure ()))
    | cons d ds =>
      have := ih hts ds
      rw [checkAll]
      infer_instance

theorem makes_checkOperands : Makes r (checkOperands ctx op ts) := by
  induction ts with
  | nil =>
    rw [checkOperands]
    infer_instance
  | cons t ts ih =>
    obtain ⟨ht, hts⟩ := List.forall_mem_cons.1 h
    have := ih hts
    rw [checkOperands]
    infer_instance

theorem makes_judgeBranches {e : Name} {motive : Ty} {i : Nat} (ds : List Ty) (cs : List Name) :
    Makes r (judgeBranches ctx e motive i ts ds cs) := by
  induction ts generalizing i ds cs with
  | nil => exact inferInstanceAs (Makes r (pure ()))
  | cons t ts ih =>
    obtain ⟨ht, hts⟩ := List.forall_mem_cons.1 h
    cases ds with
    | nil => exact inferInstanceAs (Makes r (pure ()))
    | cons d ds =>
      cases cs with
      | nil => exact inferInstanceAs (Makes r (pure ()))
      | cons x cs =>
        have (j : Nat) : Makes r (judgeBranches ctx e motive j ts ds cs) := ih hts ds cs
        rw [judgeBranches]
        infer_instance

end

theorem makes_eliminated (ctx : Context) (x : Name) (s : Term) (args : List Term) (mode : Mode)
    [∀ ds, Makes r (checkAll ctx args ds)] [∀ motive ds cs, Makes r
      (judgeBranches ctx x motive 0 args ds cs)]
    (decl : Eliminator) (found signature : Ty) : Makes r (match signature.doms with
      | [] => throw (.malformed ⟨x, .noScrutinee⟩)
      | scrutinee :: rest => do
        unless ← unify found scrutinee do mismatch s scrutinee found
        if rest.length ≠ args.length then throw (.type (.eliminatorArity x rest.length args.length))
        if decl.isCaseAnalysis then
          judgeBranches ctx x signature.result 0 args rest (ctx.constructors decl.owner)
        else checkAll ctx args rest
        settle (.elim x s args) signature.result mode : Check Ty) := by
  cases signature.doms <;> infer_instance

instance makes_judge (t : Term) (mode : Mode) : Makes r (judge ctx t mode) := by
  induction t generalizing mode with
  | var x =>
    rw [judge]
    have found (u : Option Ty) : Makes r (match u with
        | some u => settle (.var x) u mode
        | none => throw (.type (.unboundVariable x)) : Check Ty) := by
      cases u <;> infer_instance
    infer_instance
  | lit l =>
    rw [judge]
    infer_instance
  | app f a ihf iha =>
    rw [judge]
    infer_instance
  | lam x dom b ih =>
    rw [judge]
    refine @Makes.bind _ _ _ _ _ inferInstance fun parts => ?_
    rcases parts with _ | ⟨d, c⟩ <;> cases mode <;> cases dom <;> infer_instance
  | ann t u ih =>
    rw [judge]
    infer_instance
  | ctor x args ih =>
    have := makes_checkAll ih
    rw [judge]
    infer_instance
  | elim x s args ihs ih =>
    have := makes_checkAll ih
    have (motive : Ty) (ds : List Ty) (cs : List Name) :
        Makes r (judgeBranches ctx x motive 0 args ds cs) :=
      makes_judgeBranches ih ds cs
    rw [judge]
    have judged := makes_eliminated (r := r) ctx x s args mode
    infer_instance
  | prim op args ih =>
    have : Makes r (checkOperands ctx op args) := makes_checkOperands ih
    by_cases heq : op = .eq ∧ ∃ a b, args = [a, b]
    · obtain ⟨rfl, a, b, rfl⟩ := heq
      have := ih a (by simp)
      have := ih b (by simp)
      rw [judge]
      infer_instance
    · by_cases hite : op = .ite ∧ ∃ c t e, args = [c, t, e]
      · obtain ⟨rfl, c, t, e, rfl⟩ := hite
        have := ih c (by simp)
        have := ih t (by simp)
        have := ih e (by simp)
        rw [judge]
        infer_instance
      · rw [judge]
        · infer_instance
        · exact fun a b hop hargs => heq ⟨hop, a, b, hargs⟩
        · exact fun c t e hop hargs => hite ⟨hop, c, t, e, hargs⟩
  | tuple elems ih =>
    have := makes_inferAll ih
    rw [judge]
    infer_instance
  | proj t i ih =>
    rw [judge]
    refine @Makes.bind _ _ _ _ _ (ih _) fun _ => @Makes.bind _ _ _ _ _ inferInstance fun found => ?_
    have elem (elem : Option Ty) : Makes r (match elem with
        | some elem => settle (.proj t i) elem mode
        | none => throw (.type (.projection i found)) : Check Ty) := by
      cases elem <;> infer_instance
    cases found <;> infer_instance

instance : Makes r (inferAll ctx ts) := makes_inferAll fun _ _ _ => inferInstance

instance {ds : List Ty} : Makes r (checkAll ctx ts ds) :=
  makes_checkAll (fun _ _ _ => inferInstance) ds

instance : Makes r (checkOperands ctx op ts) := makes_checkOperands fun _ _ _ => inferInstance

instance {e : Name} {motive : Ty} {i : Nat} {ds : List Ty} {cs : List Name} :
    Makes r (judgeBranches ctx e motive i ts ds cs) :=
  makes_judgeBranches (fun _ _ _ => inferInstance) ds cs

instance : Makes r (infer ctx t) := makes_judge t .infer

instance : Makes r (check ctx t ty) := by
  unfold check
  infer_instance

instance makes_checkDeferred (ds : List (Term × Ty)) : Makes r (checkDeferred ctx ds) := by
  induction ds with
  | nil => exact inferInstanceAs (Makes r (pure ()))
  | cons p ds ih =>
    rw [checkDeferred]
    have settled (u : Ty) : Makes r (match u with
        | .prim _ | .metavar _ => checkDeferred ctx ds
        | _ => mismatch p.1 (.prim .int) u : Check Unit) := by
      cases u <;> infer_instance
    infer_instance

end

/-- No operation closes a cycle, also one that fails half way or is asked about metavariables
that do not exist. -/
theorem Reachable.acyclic (h : Reachable ctx c) : c.solutions.Acyclic := by
  have run {α : Type} {c : Checker} (m : Check α) [hm : Makes .acyclicity m] : c.solutions.Acyclic →
      (m.apply c).2.solutions.Acyclic :=
    hm.makes c
  induction h with
  | initial => exact (valid_initial ctx).acyclic
  | fresh _ ih => exact run _ ih
  | unify a b _ ih => exact run _ ih
  | freshCopy signature _ ih => exact run _ ih
  | push x t _ ih => exact ih
  | pop _ ih => exact ih
  | infer t _ ih => exact run _ ih
  | check t expected _ ih => exact run _ ih
  | @discharge c _ ih =>
    exact run (c := { c with equalities := [] }) (checkDeferred ctx c.equalities) ih

end Checker

end ClosedTypes
