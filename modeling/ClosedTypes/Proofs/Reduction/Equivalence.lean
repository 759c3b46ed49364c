import ClosedTypes.Proofs.Reduction.Renaming
import ClosedTypes.Proofs.Term.Alpha
/-!
Definitional equality is an equivalence as far as budgets reach. Each term has one normal form at
one cost, which terms that are equal up to bound names share; the two sides of a comparison pay one
after the other, so their order does not matter.
-/

namespace ClosedTypes

variable {rules : Rules} {ctx : Context} {typeNames : List Name} {t t' u v a b c : Term}
  {n k d e : Nat} {r : Bool}

namespace Rules

def NormalizesIn (rules : Rules) (d : Nat) (t u : Term) : Prop :=
  (rules.normalize d t).1 = some (u, 0)

theorem normalize_eq_some_iff :
    (rules.normalize n t).1 = some (u, k) ↔ ∃ d, rules.NormalizesIn d t u ∧ n = k + d := by
  constructor
  · intro h
    have hle : k ≤ n := ((rules.normalize n t).2 _ _ h).1
    exact ⟨n - k, metered_normalize.answer_cost h, (Nat.add_sub_cancel' hle).symm⟩
  · rintro ⟨d, h, rfl⟩
    have hadd := metered_normalize.answer_add (d := k) h
    rwa [Nat.zero_add, Nat.add_comm] at hadd

theorem NormalizesIn.unique (h : rules.NormalizesIn d t u) (h' : rules.NormalizesIn e t v) :
    d = e ∧ u = v := by
  have hd := metered_normalize.answer_add (d := e) h
  have he := metered_normalize.answer_add (d := d) h'
  rw [Nat.add_comm, he, Option.some.injEq, Prod.mk.injEq] at hd
  exact ⟨by omega, hd.1.symm⟩

theorem equal_eq_some_iff_normalizesIn : rules.equal n a b = some (r, k) ↔
    a.alpha b = true ∧ r = true ∧ k = n ∨ a.alpha b = false ∧
      ∃ u v d e, rules.NormalizesIn d a u ∧ rules.NormalizesIn e b v ∧ n = k + (d + e) ∧
      u.alpha v = r := by
  rw [equal_eq_some_iff]
  refine or_congr_right (and_congr_right fun _ => ⟨?_, ?_⟩)
  · rintro ⟨u, m, v, hu, hv, hr⟩
    obtain ⟨d, hd, rfl⟩ := normalize_eq_some_iff.1 hu
    obtain ⟨e, he, rfl⟩ := normalize_eq_some_iff.1 hv
    exact ⟨u, v, d, e, hd, he, by omega, hr⟩
  · rintro ⟨u, v, d, e, hd, he, rfl, hr⟩
    refine ⟨u, k + e, v, normalize_eq_some_iff.2 ⟨d, hd, by omega⟩,
      normalize_eq_some_iff.2 ⟨e, he, rfl⟩, hr⟩

theorem equal_self (rules : Rules) (n : Nat) (a : Term) : rules.equal n a a = some (true, n) :=
  equal_eq_some_iff.2 (.inl ⟨Term.congruent_alpha.refl a, rfl, rfl⟩)

theorem alpha_comm (a b : Term) : a.alpha b = b.alpha a :=
  Bool.eq_iff_iff.2 ⟨Term.congruent_alpha.symm, Term.congruent_alpha.symm⟩

theorem equal_comm (rules : Rules) (n : Nat) (a b : Term) :
    rules.equal n a b = rules.equal n b a := by
  have swap {a b : Term} {r : Bool} {k : Nat} (h : rules.equal n a b = some (r, k)) :
      rules.equal n b a = some (r, k) := by
    rw [equal_eq_some_iff_normalizesIn] at h ⊢
    rw [alpha_comm b a]
    refine h.imp_right (And.imp_right ?_)
    rintro ⟨u, v, d, e, hu, hv, hn, hr⟩
    exact ⟨v, u, e, d, hv, hu, by omega, alpha_comm v u ▸ hr⟩
  refine Option.ext fun p => ⟨swap, swap⟩

end Rules

namespace Context

open Rules (NormalizesIn)

section

variable (hr : ctx.Reachable) (hrules : rules = (Rules.ofContext ctx).loadAll typeNames)
include hr hrules

theorem Reachable.normalizesIn_of_alpha (ht : t.Over ctx.Saturates) (ht' : t'.Over ctx.Saturates)
    (halpha : t.alpha t' = true)
    (h : rules.NormalizesIn d t u) : ∃ u', rules.NormalizesIn d t' u' ∧ u.alpha u' = true := by
  have htracks := hr.tracks_normalize hrules ht ht' halpha d
  rw [h] at htracks
  generalize hq : (rules.normalize d t').1 = q at htracks
  cases htracks with
  | both hu => exact ⟨_, hq, hu⟩

theorem Reachable.normalizesIn_of_equal (ha : a.Over ctx.Saturates) (hb : b.Over ctx.Saturates)
    (h : rules.equal n a b = some (true, k)) (hu : rules.NormalizesIn d a u) :
    ∃ e v, rules.NormalizesIn e b v ∧ u.alpha v = true := by
  rcases Rules.equal_eq_some_iff_normalizesIn.1 h
    with ⟨halpha, -, -⟩ | ⟨-, u', v, d', e, hu', hv, -, huv⟩
  · exact ⟨d, hr.normalizesIn_of_alpha hrules ha hb halpha hu⟩
  · obtain ⟨-, rfl⟩ := hu.unique hu'
    exact ⟨e, v, hv, huv⟩

theorem Reachable.equal_trans (ha : a.Over ctx.Saturates) (hb : b.Over ctx.Saturates)
    (hc : c.Over ctx.Saturates)
    (hab : rules.equal n a b = some (true, k)) (hbc : rules.equal n b c = some (true, d))
    (hac : rules.equal n a c = some (r, e)) :
    r = true := by
  rcases Rules.equal_eq_some_iff_normalizesIn.1 hac
    with ⟨-, hr, -⟩ | ⟨-, u, w, _, _, hu, hw, -, huw⟩
  · exact hr
  · obtain ⟨_, v, hv, huv⟩ := hr.normalizesIn_of_equal hrules ha hb hab hu
    obtain ⟨_, w', hw', hvw⟩ := hr.normalizesIn_of_equal hrules hb hc hbc hv
    obtain ⟨-, rfl⟩ := hw.unique hw'
    rw [← huw]
    exact Term.congruent_alpha.trans huv hvw

end

/-- Definitional equality is reflexive on any budget, and symmetric, running out of budget
included. It is transitive as far as the budget reaches: a comparison that comes to an answer
agrees with those it follows from, by normal forms or not. -/
theorem definitionallyEqual_equivalence (hr : ctx.Reachable) (ha : a.Over ctx.Saturates)
    (hb : b.Over ctx.Saturates) (hc : c.Over ctx.Saturates) (fuel : Nat) :
    definitionallyEqual ctx a a fuel = .ok true ∧
      definitionallyEqual ctx a b fuel = definitionallyEqual ctx b a fuel ∧
      (definitionallyEqual ctx a b fuel = .ok true → definitionallyEqual ctx b c fuel = .ok true →
        definitionallyEqual ctx a c fuel ≠ .error (.outOfFuel fuel) →
        definitionallyEqual ctx a c fuel = .ok true) := by
  refine ⟨?_, ?_, fun hab hbc hac => ?_⟩
  · exact definitionallyEqual_eq_ok_iff.2 ⟨fuel, Rules.equal_self _ _ _⟩
  · have hcomm : (fun (rules : Rules) n => rules.equal n a b) = fun rules n => rules.equal n b a :=
      funext₂ fun _ _ => Rules.equal_comm ..
    exact congrArg (fun question => ((Evaluator.start ctx fuel).ask question).1) hcomm
  · obtain ⟨k, hab⟩ := definitionallyEqual_eq_ok_iff.1 hab
    obtain ⟨m, hbc⟩ := definitionallyEqual_eq_ok_iff.1 hbc
    cases h : (Rules.ofContext ctx).equal fuel a c with
    | none => exact absurd (congrArg Prod.fst (Evaluator.ask_of_none (r := .start ctx fuel) h)) hac
    | some p =>
      obtain ⟨answer, l⟩ := p
      have hrules : Rules.ofContext ctx = (Rules.ofContext ctx).loadAll [] := rfl
      rw [hr.equal_trans hrules ha hb hc hab hbc h] at h
      exact definitionallyEqual_eq_ok_iff.2 ⟨l, h⟩

def constantSum (x : Name) : Term := .lam x none Evaluator.sum

theorem equal_constantSum :
    definitionallyEqual .empty (constantSum "x") (.lam "z" none (.int 3)) 2 = .ok true ∧
      definitionallyEqual .empty (.lam "z" none (.int 3)) (constantSum "x") 1 =
        .error (.outOfFuel 1) := by
  have hover (x : Name) : (constantSum x).Over Context.empty.Saturates := by
    simp [constantSum, Evaluator.sum, Term.int]
  have hthree : (Term.lam "z" none (.int 3)).Over Context.empty.Saturates := by simp [Term.int]
  have h := definitionallyEqual_equivalence .empty (hover "x") (hover "y") hthree
  have hswap := definitionallyEqual_equivalence .empty (hover "x") hthree hthree 1
  refine ⟨(h 2).2.2 (by cbv) (by cbv) fun hfailed => ?_, ?_⟩
  · have hanswer : definitionallyEqual .empty (constantSum "x") (.lam "z" none (.int 3)) 2 =
        .ok true := by cbv
    rw [hanswer] at hfailed
    cases hfailed
  · rw [← hswap.2.1]
    cbv

end Context

end ClosedTypes
