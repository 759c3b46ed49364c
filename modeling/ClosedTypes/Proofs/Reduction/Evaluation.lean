import ClosedTypes.Reduction.Evaluation
import ClosedTypes.Reduction.Relation
import Mathlib.Data.List.Forall2
import Mathlib.Logic.Relation
/-!
What one step of evaluation comes to, form by form, without the account of the budget.
-/

namespace ClosedTypes.Rules

variable {rules : Rules} {n k : Nat} {t u w f a s c e : Term} {ts us args : List Term} {x op : Name}
  {i : UInt64}

theorem whnf_eq_some_iff :
    (rules.whnf n t).1 = some (w, k) ↔
      (rules.step n t).1 = some (none, k) ∧ t = w ∨
        ∃ u m, (rules.step n t).1 = some (some u, m + 1) ∧ (rules.whnf m u).1 = some (w, k) := by
  rw [whnf]
  rcases h : rules.step n t with ⟨_ | ⟨_ | u, m⟩, hs⟩
  · simp
  · simp [and_comm]
  · cases m with
    | zero => simp
    | succ m =>
      simp only [Option.some.injEq, Prod.mk.injEq, reduceCtorEq, false_and, false_or,
        Nat.add_right_cancel_iff]
      exact ⟨fun h => ⟨u, m, ⟨rfl, rfl⟩, h⟩, fun ⟨_, _, ⟨hu, hm⟩, h⟩ => hu ▸ hm ▸ h⟩

theorem step_app : (rules.step n (.app f a)).1 =
    (rules.whnf n f).1.map fun r => ((r.1.beta? a).or (moved n r.2 (.app r.1 a)), r.2) := by
  rw [step]
  rcases h : rules.whnf n f with ⟨_ | ⟨f', k⟩, hs⟩ <;> rfl

theorem step_ann {ty : Ty} : (rules.step n (.ann t ty)).1 = some (some t, n) := by rw [step]

theorem step_ctor : (rules.step n (.ctor x args)).1 =
    some ((rules.implementation? x).map (·.applyAll args), n) := by
  rw [step]
  rcases rules.implementation? x with _ | body <;> rfl

theorem step_elim_of_implemented {body : Term} (h : rules.implementation? x = some body) :
    (rules.step n (.elim x s args)).1 = some (some (body.applyAll (s :: args)), n) := by
  rw [step]
  simp only [h]

theorem step_elim (h : rules.implementation? x = none) : (rules.step n (.elim x s args)).1 =
    (rules.whnf n s).1.map fun r =>
      ((rules.contract? x r.1 args).or (moved n r.2 (.elim x r.1 args)), r.2) := by
  rw [step]
  simp only [h]
  rcases h : rules.whnf n s with ⟨_ | ⟨s', k⟩, hs⟩ <;> rfl

theorem step_proj : (rules.step n (.proj t i)).1 =
    (rules.whnf n t).1.map fun r => ((r.1.component? i).or (moved n r.2 (.proj r.1 i)), r.2) := by
  rw [step]
  rcases h : rules.whnf n t with ⟨_ | ⟨t', k⟩, hs⟩ <;> rfl

theorem step_ite : (rules.step n (.prim .ite [c, t, e])).1 =
    (rules.whnf n c).1.map fun r =>
      ((r.1.branch? t e).or (moved n r.2 (.prim .ite [r.1, t, e])), r.2) := by
  rw [step]
  rcases h : rules.whnf n c with ⟨_ | ⟨c', k⟩, hs⟩ <;> rfl

def IsBranching (op : Operator) (args : List Term) : Prop := op = .ite ∧ ∃ c t e, args = [c, t, e]

theorem step_prim {op : Operator} (h : ¬IsBranching op args) : (rules.step n (.prim op args)).1 =
    (rules.whnfEach n args).1.map fun r =>
      ((fold op r.1).or (moved n r.2 (.prim op r.1)), r.2) := by
  rw [step.eq_def]
  split <;> rename_i heq <;> cases heq
  · exact absurd ⟨rfl, _, _, _, rfl⟩ h
  · rcases h : rules.whnfEach n args with ⟨_ | ⟨args', k⟩, hs⟩ <;> rfl

theorem step_var : (rules.step n (.var x)).1 = some (none, n) := by rw [step]

theorem step_lit {l : Literal} : (rules.step n (.lit l)).1 = some (none, n) := by rw [step]

theorem step_lam {dom : Option Ty} :
    (rules.step n (.lam x dom t)).1 = some (none, n) := by rw [step]

theorem step_tuple : (rules.step n (.tuple ts)).1 = some (none, n) := by rw [step]

theorem whnfEach_nil : (rules.whnfEach n []).1 = some ([], n) := by rw [whnfEach]

theorem whnfEach_cons : (rules.whnfEach n (t :: ts)).1 =
    (rules.whnf n t).1.bind fun r => (rules.whnfEach r.2 ts).1.map fun rs =>
      (r.1 :: rs.1, rs.2) := by
  rw [whnfEach]
  rcases h : rules.whnf n t with ⟨_ | ⟨t', k⟩, hs⟩
  · rfl
  · dsimp only
    rcases h' : rules.whnfEach k ts with ⟨_ | ⟨ts', m⟩, hs'⟩ <;> simp [h']

/-- No rule applies at the head, nor at a part that has to be evaluated first. -/
inductive Stuck (rules : Rules) : Term → Prop where
  | var {x : Name} : Stuck rules (.var x)
  | lit {l : Literal} : Stuck rules (.lit l)
  | lam {x : Name} {dom : Option Ty} {b : Term} : Stuck rules (.lam x dom b)
  | tuple {elems : List Term} : Stuck rules (.tuple elems)
  | ctor {x : Name} {args : List Term} : rules.implementation? x = none → Stuck rules (.ctor x args)
  | app {f a : Term} : Stuck rules f → f.beta? a = none → Stuck rules (.app f a)
  | elim {x : Name} {s : Term} {args : List Term} :
    rules.implementation? x = none → Stuck rules s → rules.contract? x s args = none →
      Stuck rules (.elim x s args)
  | proj {t : Term} {i : UInt64} : Stuck rules t → t.component? i = none → Stuck rules (.proj t i)
  | ite {c t e : Term} : Stuck rules c → c.branch? t e = none → Stuck rules (.prim .ite [c, t, e])
  | prim {op : Operator} {args : List Term} :
    ¬IsBranching op args → (∀ a ∈ args, Stuck rules a) → fold op args = none →
      Stuck rules (.prim op args)

theorem eq_of_moved_eq_none {r : Term × Nat} (h : (rules.whnf n t).1 = some r)
    (hm : moved n r.2 u = none) : r.1 = t := by
  unfold moved at hm
  split at hm
  · rename_i heq
    exact ((rules.whnf n t).2 r.1 r.2 h).2 heq
  · cases hm

theorem stuck_part {r : Term × Nat} {o : Option Term} (h : (rules.whnf n t).1 = some r)
    (hr : rules.Stuck r.1)
    (ho : o.or (moved n r.2 u) = none) : r.1 = t ∧ o = none ∧ rules.Stuck t := by
  obtain ⟨ho, hm⟩ := Option.or_eq_none_iff.1 ho
  have heq := eq_of_moved_eq_none h hm
  exact ⟨heq, ho, heq ▸ hr⟩

mutual

theorem stuck_of_whnf {n k : Nat} {t w : Term} (h : (rules.whnf n t).1 = some (w, k)) :
    rules.Stuck w := by
  rcases whnf_eq_some_iff.1 h with ⟨hs, rfl⟩ | ⟨u, m, hs, hw⟩
  · exact stuck_of_step hs
  · have hspent := ((rules.step n t).2 _ _ hs).1
    exact stuck_of_whnf hw
termination_by (n, 2 * t.size + 1)
decreasing_by all_goals exact lex_of (by omega) fun _ => by omega

theorem stuck_of_step {n k : Nat} {t : Term} (h : (rules.step n t).1 = some (none, k)) :
    rules.Stuck t := by
  match t with
  | .var x => exact .var
  | .lit l => exact .lit
  | .lam x dom b => exact .lam
  | .tuple elems => exact .tuple
  | .ann t ty =>
    rw [step_ann] at h
    cases h
  | .ctor x args =>
    rw [step_ctor, Option.some.injEq, Prod.mk.injEq, Option.map_eq_none_iff] at h
    exact .ctor h.1
  | .app f a =>
    rw [step_app, Option.map_eq_some_iff] at h
    obtain ⟨r, hr, h⟩ := h
    obtain ⟨heq, hbeta, hf⟩ := stuck_part hr (stuck_of_whnf hr) (congrArg Prod.fst h)
    exact .app hf (heq ▸ hbeta)
  | .elim x s args =>
    cases himpl : rules.implementation? x with
    | some body =>
      rw [step_elim_of_implemented himpl] at h
      cases h
    | none =>
      rw [step_elim himpl, Option.map_eq_some_iff] at h
      obtain ⟨r, hr, h⟩ := h
      obtain ⟨heq, hcontract, hs⟩ := stuck_part hr (stuck_of_whnf hr) (congrArg Prod.fst h)
      exact .elim himpl hs (heq ▸ hcontract)
  | .proj t i =>
    rw [step_proj, Option.map_eq_some_iff] at h
    obtain ⟨r, hr, h⟩ := h
    obtain ⟨heq, hcomponent, ht⟩ := stuck_part hr (stuck_of_whnf hr) (congrArg Prod.fst h)
    exact .proj ht (heq ▸ hcomponent)
  | .prim op args =>
    by_cases hb : IsBranching op args
    · obtain ⟨hop, c, t, e, hargs⟩ := hb
      rw [hop, hargs, step_ite, Option.map_eq_some_iff] at h
      obtain ⟨r, hr, h⟩ := h
      obtain ⟨heq, hbranch, hc⟩ := stuck_part hr (stuck_of_whnf hr) (congrArg Prod.fst h)
      rw [hop, hargs]
      exact .ite hc (heq ▸ hbranch)
    -- all operands are evaluated, so that none of them may have moved
    · rw [step_prim hb, Option.map_eq_some_iff] at h
      obtain ⟨r, hr, h⟩ := h
      obtain ⟨hfold, hm⟩ := Option.or_eq_none_iff.1 (congrArg Prod.fst h)
      have hargs := stuck_of_whnfEach hr
      have heq : r.1 = args := by
        unfold moved at hm
        split at hm
        · rename_i heq
          exact ((rules.whnfEach n args).2 r.1 r.2 hr).2 heq
        · cases hm
      rw [heq] at hargs hfold
      exact .prim hb hargs hfold
termination_by (n, 2 * t.size)
decreasing_by
  all_goals
    refine lex_of (by omega) fun _ => ?_
    subst_vars
    simp only [Term.size, Term.sizeAll]
    omega

theorem stuck_of_whnfEach {n : Nat} {ts : List Term} {r : List Term × Nat}
    (h : (rules.whnfEach n ts).1 = some r) :
    ∀ u ∈ r.1, rules.Stuck u := by
  match ts with
  | [] =>
    rw [whnfEach_nil] at h
    cases h
    nofun
  | t :: ts =>
    rw [whnfEach_cons, Option.bind_eq_some_iff] at h
    obtain ⟨r₁, h₁, h⟩ := h
    obtain ⟨rs, hrs, rfl⟩ := Option.map_eq_some_iff.1 h
    have hle := ((rules.whnf n t).2 _ _ h₁).1
    exact List.forall_mem_cons.2 ⟨stuck_of_whnf h₁, stuck_of_whnfEach hrs⟩
termination_by (n, 2 * Term.sizeAll ts)
decreasing_by all_goals exact lex_of (by omega) fun _ => by simp only [Term.sizeAll]; omega

end

/-- One redex contracts at the head, or at a part that may be evaluated first. No binder stands
above it. -/
inductive Advances (rules : Rules) : Term → Term → Prop where
  | contract {t u : Term} : rules.Contracts t u → Advances rules t u
  | fn {f g a : Term} : Advances rules f g → Advances rules (.app f a) (.app g a)
  | scrutinee {x : Name} {s t : Term} {args : List Term} : Advances rules s t →
    Advances rules (.elim x s args) (.elim x t args)
  | proj {t u : Term} {i : UInt64} : Advances rules t u → Advances rules (.proj t i) (.proj u i)
  | operand {op : Operator} {before after : List Term} {t u : Term} :
    Advances rules t u → Advances rules (.prim op (before ++ t :: after))
      (.prim op (before ++ u :: after))

abbrev Runs (rules : Rules) : Term → Term → Prop := Relation.ReflTransGen rules.Advances

theorem ReducesOne.of_split (before after : List Term) (h : rules.Reduces t u) :
    rules.ReducesOne (before ++ t :: after) (before ++ u :: after) := by
  induction before with
  | nil => exact .head h
  | cons s before ih => exact .tail ih

theorem Advances.reduces (h : rules.Advances t u) : rules.Reduces t u := by
  induction h with
  | contract h => exact .here h
  | fn _ ih => exact .fn ih
  | scrutinee _ ih => exact .scrutinee ih
  | proj _ ih => exact .proj ih
  | operand _ ih => exact .prim (.of_split _ _ ih)

theorem Runs.reaches (h : rules.Runs t u) : rules.Reaches t u :=
  h.lift id fun _ _ => Advances.reduces

theorem Runs.operand {op : Operator} (before : List Term) {after : List Term} (h : rules.Runs t u) :
    rules.Runs (.prim op (before ++ t :: after)) (.prim op (before ++ u :: after)) :=
  h.lift (fun t => Term.prim op (before ++ t :: after)) fun _ _ => .operand

theorem Runs.operands {op : Operator} (before : List Term) (h : List.Forall₂ rules.Runs ts us) :
    rules.Runs (.prim op (before ++ ts)) (.prim op (before ++ us)) := by
  induction h generalizing before with
  | nil => exact .refl
  | @cons t u ts us ht _ ih =>
    refine (Runs.operand before ht).trans ?_
    have hrest := ih (before ++ [u])
    rwa [List.append_assoc, List.append_assoc] at hrest

theorem Runs.of_or {m : Nat} {o : Option Term} {v : Term} (h : rules.Runs t u)
    (ho : ∀ v, o = some v → rules.Contracts u v)
    (hv : o.or (moved n m u) = some v) : rules.Runs t v := by
  rcases Option.or_eq_some_iff.1 hv with hv | ⟨-, hv⟩
  · exact h.tail (.contract (ho v hv))
  · unfold moved at hv
    split at hv <;> cases hv
    exact h

theorem contracts_of_beta? (h : f.beta? a = some u) : rules.Contracts (.app f a) u := by
  cases f with
  | lam x dom b =>
    cases h
    exact .beta
  | _ => cases h

theorem contracts_of_contract? (h : rules.contract? x s args = some u) :
    rules.Contracts (.elim x s args) u := by
  cases s with
  | ctor c fields =>
    obtain ⟨d, hd, rfl⟩ := Option.map_eq_some_iff.1 h
    exact .equation hd
  | _ => cases h

theorem contracts_of_component? (h : t.component? i = some u) : rules.Contracts (.proj t i) u := by
  cases t with
  | tuple elems => exact .projection h
  | _ => cases h

theorem contracts_of_branch? (h : c.branch? t e = some u) :
    rules.Contracts (.prim .ite [c, t, e]) u := by
  cases c with
  | lit l =>
    cases l with
    | bool b =>
      cases h
      exact .branch
    | int n => cases h
  | _ => cases h

mutual

theorem runs_of_whnf {n k : Nat} {t w : Term} (h : (rules.whnf n t).1 = some (w, k)) :
    rules.Runs t w := by
  rcases whnf_eq_some_iff.1 h with ⟨hs, rfl⟩ | ⟨u, m, hs, hw⟩
  · exact .refl
  · have hspent := ((rules.step n t).2 _ _ hs).1
    exact (runs_of_step hs).trans (runs_of_whnf hw)
termination_by (n, 2 * t.size + 1)
decreasing_by all_goals exact lex_of (by omega) fun _ => by omega

theorem runs_of_step {n k : Nat} {t u : Term} (h : (rules.step n t).1 = some (some u, k)) :
    rules.Runs t u := by
  match t with
  | .var x =>
    rw [step_var] at h
    cases h
  | .lit l =>
    rw [step_lit] at h
    cases h
  | .lam x dom b =>
    rw [step_lam] at h
    cases h
  | .tuple elems =>
    rw [step_tuple] at h
    cases h
  | .ann t ty =>
    rw [step_ann] at h
    cases h
    exact .single (.contract .erasure)
  | .ctor x args =>
    rw [step_ctor, Option.some.injEq, Prod.mk.injEq, Option.map_eq_some_iff] at h
    obtain ⟨⟨body, hbody, rfl⟩, -⟩ := h
    exact .single (.contract (.constructor hbody))
  | .app f a =>
    rw [step_app, Option.map_eq_some_iff] at h
    obtain ⟨r, hr, h⟩ := h
    have hpart : rules.Runs (.app f a) (.app r.1 a) :=
      (runs_of_whnf hr).lift (Term.app · a) fun _ _ => .fn
    exact hpart.of_or (fun _ => contracts_of_beta?) (congrArg Prod.fst h)
  | .elim x s args =>
    cases himpl : rules.implementation? x with
    | some body =>
      rw [step_elim_of_implemented himpl] at h
      cases h
      exact .single (.contract (.eliminator himpl))
    | none =>
      rw [step_elim himpl, Option.map_eq_some_iff] at h
      obtain ⟨r, hr, h⟩ := h
      have hpart : rules.Runs (.elim x s args) (.elim x r.1 args) :=
        (runs_of_whnf hr).lift (Term.elim x · args) fun _ _ => .scrutinee
      exact hpart.of_or (fun _ => contracts_of_contract?) (congrArg Prod.fst h)
  | .proj t i =>
    rw [step_proj, Option.map_eq_some_iff] at h
    obtain ⟨r, hr, h⟩ := h
    have hpart : rules.Runs (.proj t i) (.proj r.1 i) :=
      (runs_of_whnf hr).lift (Term.proj · i) fun _ _ => .proj
    exact hpart.of_or (fun _ => contracts_of_component?) (congrArg Prod.fst h)
  | .prim op args =>
    by_cases hb : IsBranching op args
    · obtain ⟨hop, c, t, e, hargs⟩ := hb
      rw [hop, hargs, step_ite, Option.map_eq_some_iff] at h
      obtain ⟨r, hr, h⟩ := h
      have hpart : rules.Runs (.prim .ite [c, t, e]) (.prim .ite [r.1, t, e]) :=
        .operand [] (runs_of_whnf hr)
      rw [hop, hargs]
      exact hpart.of_or (fun _ => contracts_of_branch?) (congrArg Prod.fst h)
    · rw [step_prim hb, Option.map_eq_some_iff] at h
      obtain ⟨r, hr, h⟩ := h
      have hpart : rules.Runs (.prim op args) (.prim op r.1) := .operands [] (runs_of_whnfEach hr)
      exact hpart.of_or (fun _ => .fold) (congrArg Prod.fst h)
termination_by (n, 2 * t.size)
decreasing_by
  all_goals
    refine lex_of (by omega) fun _ => ?_
    subst_vars
    simp only [Term.size, Term.sizeAll]
    omega

theorem runs_of_whnfEach {n : Nat} {ts : List Term} {r : List Term × Nat}
    (h : (rules.whnfEach n ts).1 = some r) :
    List.Forall₂ rules.Runs ts r.1 := by
  match ts with
  | [] =>
    rw [whnfEach_nil] at h
    cases h
    exact .nil
  | t :: ts =>
    rw [whnfEach_cons, Option.bind_eq_some_iff] at h
    obtain ⟨r₁, h₁, h⟩ := h
    obtain ⟨rs, hrs, rfl⟩ := Option.map_eq_some_iff.1 h
    have hle := ((rules.whnf n t).2 _ _ h₁).1
    exact .cons (runs_of_whnf h₁) (runs_of_whnfEach hrs)
termination_by (n, 2 * Term.sizeAll ts)
decreasing_by all_goals exact lex_of (by omega) fun _ => by simp only [Term.sizeAll]; omega

end

end ClosedTypes.Rules
