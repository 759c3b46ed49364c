import ClosedTypes.Proofs.Context.Congruence
import ClosedTypes.Proofs.Reduction.Lockstep
import ClosedTypes.Proofs.Reduction.NormalForm
/-!
What an answer costs does not depend on the budget. Every budget that covers the cost leads to the
answer, at that cost, and every smaller one is used up without an answer.
-/

namespace ClosedTypes

variable {α : Type} {rules : Rules} {t u w a b v : Term} {n m k f : Nat}

structure Metered (question : Nat → Option (α × Nat)) : Prop where
  spent : ∀ n, Spent n (fun _ => True) (question n)
  tracks : ∀ n d, Tracks d (fun a b => a = b) (question n) (question (n + d))

namespace Metered

variable {question : Nat → Option (α × Nat)} {answer : α} (h : Metered question)

include h

theorem answer_add {d : Nat} (hanswer : question n = some (answer, k)) :
    question (n + d) = some (answer, k + d) := by
  generalize hr : question n = r, question (n + d) = r', h.tracks n d = ht
  rw [hr] at hanswer
  subst hanswer
  cases ht with
  | both heq => rw [heq]

theorem answer_cost (hanswer : question n = some (answer, k)) :
    question (n - k) = some (answer, 0) := by
  have hle : k ≤ n := (h.spent n _ _ hanswer).1
  have ht := h.tracks (n - k) k
  rw [Nat.sub_add_cancel hle, hanswer] at ht
  generalize question (n - k) = r at ht
  generalize hk : some (answer, k) = r' at ht
  cases ht with
  | @both a b l heq =>
    have hl : b = answer ∧ l + k = k := by simpa [eq_comm] using hk
    rw [heq, hl.1, show l = 0 by omega]
  | neither => cases hk
  | second hlt =>
    cases hk
    exact absurd hlt (Nat.lt_irrefl k)

theorem answer_of_le (hanswer : question n = some (answer, k)) (hle : n - k ≤ m) :
    question m = some (answer, m - (n - k)) := by
  have := h.answer_add (d := m - (n - k)) (h.answer_cost hanswer)
  rwa [Nat.add_sub_cancel' hle, Nat.zero_add] at this

theorem eq_none_of_lt (hanswer : question n = some (answer, k)) (hlt : m < n - k) :
    question m = none := by
  cases hm : question m with
  | none => rfl
  | some r =>
    obtain ⟨answer', l⟩ := r
    have hadd := h.answer_add (d := n - k - m) hm
    rw [Nat.add_sub_cancel' (Nat.le_of_lt hlt), h.answer_cost hanswer, Option.some.injEq,
      Prod.mk.injEq] at hadd
    omega

end Metered

namespace Rules

theorem covered_trivial : rules.Over fun _ => True where
  equations _ _ _ _ := trivial
  implementations _ _ _ := trivial

theorem agree_self : Agree (fun _ => True) rules rules := ⟨fun _ _ _ => rfl, fun _ => rfl⟩

theorem metered_whnf : Metered fun n => (rules.whnf n t).1 where
  spent n a m e := ⟨((rules.whnf n t).2 a m e).1, fun _ => trivial⟩
  tracks _ _ := agree_self.tracks_whnf covered_trivial fun _ _ => trivial

theorem metered_normalize : Metered fun n => (rules.normalize n t).1 where
  spent n := (rules.normalize n t).2
  tracks _ _ := agree_self.tracks_normalize covered_trivial fun _ _ => trivial

theorem equal_eq_bind (h : a.alpha b = false) : rules.equal n a b =
    (rules.normalize n a).1.bind fun r => (rules.normalize r.2 b).1.map fun q =>
      (r.1.alpha q.1, q.2) := by
  unfold equal
  rw [if_neg (Bool.eq_false_iff.1 h), Option.bind_eq_bind]
  refine Option.bind_congr fun ⟨u, m⟩ _ => ?_
  exact Option.map_eq_bind.symm

theorem metered_equal : Metered fun n => rules.equal n a b := by
  cases halpha : a.alpha b with
  | true =>
    have heq (n : Nat) : rules.equal n a b = some (true, n) :=
      equal_eq_some_iff.2 (.inl ⟨halpha, rfl, rfl⟩)
    simp only [heq]
    exact ⟨fun n => .some n.le_refl fun _ => trivial, fun n d => .both rfl⟩
  | false =>
    simp only [equal_eq_bind halpha]
    refine ⟨fun n => (rules.normalize n a).2.bind fun r => (rules.normalize r.2 b).2.map,
      fun n d => ?_⟩
    refine (metered_normalize.tracks n d).bind (fun u u' k _ hu => ?_) fun u k =>
      (rules.normalize k b).2.map
    refine (metered_normalize.tracks k d).map fun v v' m _ hv => ?_
    rw [hu, hv]

theorem whnf_eq_self_iff (h : (rules.whnf n t).1 = some (w, k)) : w = t ↔ k = n := by
  refine ⟨?_, ((rules.whnf n t).2 _ _ h).2⟩
  rintro rfl
  rw [whnf_of_stuck (stuck_of_whnf h)] at h
  cases h
  rfl

theorem moved_whnf (h : (rules.whnf n t).1 = some (w, k)) :
    moved n k u = if w = t then none else some u := by
  unfold moved
  simp only [whnf_eq_self_iff h]

end Rules

namespace Evaluator

def full (rules : Rules) (limit : Nat) : Evaluator := ⟨rules, limit, limit⟩

/-- The budget of a run is an exact threshold. A run takes no more than is left, and without an
answer all of it, in which case no smaller budget is enough either. An answer that took `s` steps
of a whole budget is the answer of every budget from `s` on, again in `s` steps, and of none
below. -/
structure Exact (rules : Rules) (run : Evaluator → Except Error α × Evaluator) : Prop where
  bounded : ∀ limit n, (run ⟨rules, limit, n⟩).2.rules = rules ∧
    (run ⟨rules, limit, n⟩).2.limit = limit ∧
    (run ⟨rules, limit, n⟩).2.remaining ≤ n
  exhausted : ∀ limit n e, (run ⟨rules, limit, n⟩).1 = .error e →
    e = .outOfFuel limit ∧ (run ⟨rules, limit, n⟩).2.steps = limit ∧
      ∀ m ≤ n, (run ⟨rules, limit, m⟩).1 = .error (.outOfFuel limit)
  enough : ∀ f f' a, (run (full rules f)).1 = .ok a → (run (full rules f)).2.steps ≤ f' →
    (run (full rules f')).1 = .ok a ∧ (run (full rules f')).2.steps = (run (full rules f)).2.steps
  short : ∀ f f' a, (run (full rules f)).1 = .ok a → f' < (run (full rules f)).2.steps →
    (run (full rules f')).1 = .error (.outOfFuel f')

variable {question : Rules → Nat → Option (α × Nat)} {r : Evaluator} {answer : α}

theorem ask_of_some (h : question r.rules r.remaining = some (answer, m)) :
    r.ask question = (.ok answer, { r with remaining := m }) := by
  unfold ask
  rw [h]

theorem ask_of_none (h : question r.rules r.remaining = none) :
    r.ask question = (.error (.outOfFuel r.limit), { r with remaining := 0 }) := by
  unfold ask
  rw [h]

theorem Exact.ask (h : Metered (question rules)) : Exact rules fun r => r.ask question where
  bounded limit n := by
    cases hq : question rules n with
    | none =>
      rw [ask_of_none (r := ⟨rules, limit, n⟩) hq]
      exact ⟨rfl, rfl, n.zero_le⟩
    | some r =>
      rw [ask_of_some (r := ⟨rules, limit, n⟩) hq]
      exact ⟨rfl, rfl, (h.spent n _ _ hq).1⟩
  exhausted limit n e he := by
    cases hq : question rules n with
    | some r =>
      rw [ask_of_some (r := ⟨rules, limit, n⟩) hq] at he
      cases he
    | none =>
      rw [ask_of_none (r := ⟨rules, limit, n⟩) hq] at he ⊢
      cases he
      refine ⟨rfl, limit.sub_zero, fun m hm => ?_⟩
      cases hm' : question rules m with
      | none => rw [ask_of_none (r := ⟨rules, limit, m⟩) hm']
      | some r =>
        have := h.answer_add (d := n - m) hm'
        rw [Nat.add_sub_cancel' hm, hq] at this
        cases this
  enough f f' a ha hle := by
    obtain ⟨k, hk⟩ := fst_ask_eq_ok_iff.1 ha
    rw [ask_of_some hk] at hle ⊢
    have hcost : f - k ≤ f' := hle
    rw [ask_of_some (r := full rules f') (h.answer_of_le hk hcost)]
    exact ⟨rfl, Nat.sub_sub_self hcost⟩
  short f f' a ha hlt := by
    obtain ⟨k, hk⟩ := fst_ask_eq_ok_iff.1 ha
    rw [ask_of_some hk] at hlt
    rw [ask_of_none (r := full rules f') (h.eq_none_of_lt hk hlt)]
    rfl

theorem steps_equal_of_alpha (h : a.alpha b = true) :
    ((full rules f).equal a b).1 = .ok true ∧ ((full rules f).equal a b).2.steps = 0 := by
  have heq : rules.equal f a b = some (true, f) := Rules.equal_eq_some_iff.2 (.inl ⟨h, rfl, rfl⟩)
  unfold Evaluator.equal
  rw [ask_of_some (r := full rules f) heq]
  exact ⟨rfl, Nat.sub_self f⟩

theorem steps_equal_of_not_alpha {c : Bool} (h : a.alpha b = false)
    (hequal : ((full rules f).equal a b).1 = .ok c) :
    ∃ u v, ((full rules f).normalize a).1 = .ok u ∧ ((full rules f).normalize b).1 = .ok v ∧
    c = u.alpha v ∧
      ((full rules f).equal a b).2.steps = ((full rules f).normalize a).2.steps +
        ((full rules f).normalize b).2.steps := by
  obtain ⟨k, hk⟩ := fst_ask_eq_ok_iff.1 hequal
  rcases Rules.equal_eq_some_iff.1 hk with ⟨halpha, -⟩ | ⟨-, u, m, v, hu, hv, hc⟩
  · rw [h] at halpha
    cases halpha
  have hm : m ≤ f := ((rules.normalize f a).2 _ _ hu).1
  have hkm : k ≤ m := ((rules.normalize m b).2 _ _ hv).1
  have hv' : (rules.normalize f b).1 = some (v, f - (m - k)) :=
    Rules.metered_normalize.answer_of_le hv (by omega)
  have ha : (full rules f).normalize a = (.ok u, { full rules f with remaining := m }) :=
    ask_of_some hu
  have hb : (full rules f).normalize b = (.ok v, { full rules f with remaining := f - (m - k) }) :=
    ask_of_some hv'
  have hab : (full rules f).equal a b = (.ok c, { full rules f with remaining := k }) :=
    ask_of_some hk
  rw [ha, hb, hab]
  refine ⟨u, v, rfl, rfl, hc.symm, ?_⟩
  show f - k = f - m + (f - (f - (m - k)))
  omega

/-- Budgets are exact for head normal forms, normal forms and equality, by any rules and for any
terms. Equality takes the steps of both sides, and none for terms that are equal up to bound
names as they stand. -/
theorem exact_budgets (rules : Rules) (t a b : Term) :
    Exact rules (·.whnf t) ∧ Exact rules (·.normalize t) ∧ Exact rules (·.equal a b) ∧
    (∀ f, a.alpha b = true → ((full rules f).equal a b).1 = .ok true ∧
      ((full rules f).equal a b).2.steps = 0) ∧
    ∀ f c, a.alpha b = false → ((full rules f).equal a b).1 = .ok c →
      ∃ u v, ((full rules f).normalize a).1 = .ok u ∧ ((full rules f).normalize b).1 = .ok v ∧
      c = u.alpha v ∧
        ((full rules f).equal a b).2.steps = ((full rules f).normalize a).2.steps +
          ((full rules f).normalize b).2.steps :=
  ⟨.ask Rules.metered_whnf, .ask Rules.metered_normalize, .ask Rules.metered_equal, fun _ =>
    steps_equal_of_alpha, fun _ _ => steps_equal_of_not_alpha⟩

def sum : Term := .prim .add [.int 1, .prim .add [.int 1, .int 1]]

theorem normalize_sum : ((full (.ofContext .empty) 10).normalize sum).1 = .ok (.int 3) ∧
    ((full (.ofContext .empty) 10).normalize sum).2.steps = 2 := by cbv

theorem exact_sum : ((full (.ofContext .empty) 2).normalize sum).1 = .ok (.int 3) ∧
    ((full (.ofContext .empty) 1).normalize sum).1 = .error (.outOfFuel 1) := by
  have h := (exact_budgets (.ofContext .empty) sum sum sum).2.1
  obtain ⟨hanswer, hsteps⟩ := normalize_sum
  exact ⟨(h.enough 10 2 _ hanswer hsteps.le).1, h.short 10 1 _ hanswer (hsteps ▸ Nat.one_lt_two)⟩

end Evaluator

end ClosedTypes
