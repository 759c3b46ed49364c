import ClosedTypes.Proofs.Typing.Runs
import ClosedTypes.Proofs.Typing.Unifiers
/-!
Unification computes most general unifiers. It makes two types equal whenever that can be done, and
what it solves on the way every substitution agrees with that makes them equal.
-/

namespace ClosedTypes

namespace Solutions

variable {s : Solutions} {a b t : Ty} {i : UInt32} {σ : UInt32 → Ty}

def Below (n : Nat) (t : Ty) : Prop := ∀ i, t.mentionsMetavar i = true → i.toNat < n

theorem hereditary_below (n : Nat) : Hereditary (Below n) where
  const h t ht i hi := h i (by simpa using ⟨t, ht, hi⟩)
  arrow h := ⟨fun i hi => h i (by simp [hi]), fun i hi => h i (by simp [hi])⟩
  tuple h t ht i hi := h i (by simpa using ⟨t, ht, hi⟩)

theorem Acyclic.zonk_eq_of_fill_eq (h : s.Acyclic)
    (heq : ∀ σ, Satisfies σ s → a.fill σ = b.fill σ) : s.zonk a = s.zonk b := by
  have hopen (t : Ty) : t.fill .metavar = t := Ty.bind_id t
  have hsat := h.satisfies .metavar
  simp only [hopen] at hsat
  rw [zonk_eq_fill, zonk_eq_fill s b]
  exact heq _ hsat

end Solutions

namespace Checker

open Solutions (Satisfies)

variable {ctx : Context} {c : Checker} {a b : Ty}

/-- In a reachable state whose metavariables all exist, unification answers whether some
substitution that agrees with the solutions makes the two types equal. It keeps the solutions,
and if there is such a substitution, it makes the types equal and adds only what all such
substitutions agree with. -/
theorem unify_most_general (hc : Reachable ctx c)
    (hs : c.solutions.All (Solutions.Below c.solutions.size))
    (ha : Solutions.Below c.solutions.size a) (hb : Solutions.Below c.solutions.size b) :
    ∃ r c', Answers (unify a b) c r c' ∧
      (∀ i t, c.solutions.solution? i = some t → c'.solutions.solution? i = some t) ∧
      (r = true → c'.solutions.zonk a = c'.solutions.zonk b ∧
        ∀ σ, Satisfies σ c'.solutions ↔ Satisfies σ c.solutions ∧ a.fill σ = b.fill σ) ∧
      (r = false → ∀ σ, Satisfies σ c.solutions → a.fill σ ≠ b.fill σ) := by
  have hp := Solutions.hereditary_below c.solutions.size
  have hunified := Solutions.unified_unify hp hc.acyclic hs ha hb
  have hsolved (σ : UInt32 → Ty) (hσ : Satisfies σ c.solutions) (heq : a.fill σ = b.fill σ) :=
    Solutions.solved_unify hp (fun _ _ h => h _) hc.acyclic hs hσ ha hb heq
  refine ⟨_, _, answers_unify.2 ⟨rfl, rfl⟩, hunified.ext.kept, fun hr =>
    ⟨?_, fun σ => ⟨fun hσ => ?_, fun hσ => ?_⟩⟩, fun hr σ hσ heq => ?_⟩
  · exact hunified.acyclic.zonk_eq_of_fill_eq (hunified.equal hr)
  · exact ⟨hσ.of_extends hunified.ext, hunified.equal hr σ hσ⟩
  · exact (hsolved σ hσ.1 hσ.2).2
  · rw [(hsolved σ hσ heq).1] at hr
    cases hr

def endomaps : Checker :=
  ((unify (.metavar 0) (.arrow (.metavar 1) (.metavar 1))).apply
    (fresh.apply (fresh.apply .initial).2).2).2

theorem unify_endomaps :
    (∃ c', Answers (unify (.metavar 0) (.arrow (.prim .int) (.metavar 1))) endomaps true c' ∧
      ∀ σ, Satisfies σ c'.solutions ↔
        Satisfies σ endomaps.solutions ∧ (Ty.metavar 0).fill σ =
          (Ty.arrow (.prim .int) (.metavar 1)).fill σ) ∧
      ∀ σ, Satisfies σ endomaps.solutions → (Ty.metavar 0).fill σ ≠
        (Ty.arrow (.prim .int) (.prim .bool)).fill σ := by
  have hc : Reachable .empty endomaps := .unify _ _ (.fresh (.fresh .initial))
  have hsize : endomaps.solutions.size = 2 := rfl
  have hs : endomaps.solutions.All (Solutions.Below endomaps.solutions.size) := by
    intro i t ht
    have hslots : endomaps.solutions.slots = #[some (.arrow (.metavar 1) (.metavar 1)), none] := by
      rfl
    have hi := Solutions.toNat_lt_of_solution? ht
    rw [Solutions.solution?, hslots] at ht
    rw [hsize] at hi ⊢
    obtain h | h : i.toNat = 0 ∨ i.toNat = 1 := by omega
    all_goals
      rw [h] at ht
      cases ht
    simp [Solutions.Below]
  have h0 : Solutions.Below endomaps.solutions.size (.metavar 0) := by simp [Solutions.Below, hsize]
  have h1 : Solutions.Below endomaps.solutions.size (.arrow (.prim .int) (.metavar 1)) := by
    simp [Solutions.Below, hsize]
  have h2 : Solutions.Below endomaps.solutions.size (.arrow (.prim .int) (.prim .bool)) := by
    simp [Solutions.Below, hsize]
  obtain ⟨r, c', ha, -, htrue, -⟩ := unify_most_general hc hs h0 h1
  obtain ⟨r', c'', ha', -, -, hfalse⟩ := unify_most_general hc hs h0 h2
  have hr : true = r := by
    rw [← (answers_unify.1 ha).1]
    rfl
  have hr' : false = r' := by
    rw [← (answers_unify.1 ha').1]
    rfl
  subst hr hr'
  exact ⟨⟨c', ha, (htrue rfl).2⟩, hfalse rfl⟩

end Checker

end ClosedTypes
