import ClosedTypes.Proofs.Faithfulness.Coverage
/-!
How the check of a goal fails: for want of fuel, without a decision, or with an instance at which
the normal forms of the two sides differ.
-/

namespace ClosedTypes.Faithfulness.Goal

variable {goal : Goal} {r : Evaluator} {mode : Mode} {samples : List Literal} {limit n : Nat}
  {bindings : List (Name × Term)}
  {wheels : List Wheel} {cex : Counterexample} {e : Error}

/-- An instance of the goal at samples, or in symbolic mode the goal as it is, with sides whose
normal forms differ. -/
structure RefutedBy (goal : Goal) (r : Evaluator) (samples : List Literal) (mode : Mode)
    (cex : Counterexample) : Prop where
  bindings : Assigns (goal.pools samples) cex.bindings ∨ mode = .symbolic ∧ cex.bindings = []
  sides : goal.sides r cex.bindings = .ok (cex.lhs, cex.rhs)
  differ : cex.lhs.alpha cex.rhs = false

theorem RefutedBy.literals (h : goal.RefutedBy r samples mode cex) :
    ∀ b ∈ cex.bindings, ∃ l, b.2 = .lit l := by
  rcases h.bindings with hb | ⟨-, hb⟩
  · exact literal_of_assigns hb
  · rw [hb]
    exact List.forall_mem_nil _

theorem error_of_normalize {t : Term} (h : (r.normalize t).1 = .error e) :
    e = .outOfFuel r.limit := by
  unfold Evaluator.normalize at h
  rw [Evaluator.fst_ask] at h
  split at h <;> cases h
  rfl

theorem error_of_sides (h : goal.sides r bindings = .error e) : e = .outOfFuel r.limit := by
  rcases bind_eq_error_iff.1 h with h | ⟨u, -, h⟩
  · exact error_of_normalize h
  · rcases bind_eq_error_iff.1 h with h | ⟨v, -, h⟩
    · exact error_of_normalize h
    · cases h

theorem error_of_tryCase (h : goal.tryCase r wheels = .error e) : e = .outOfFuel r.limit ∨
    ∃ u v, e = goal.unfaithful ⟨wheels.map Wheel.binding, u, v⟩ ∧
    goal.sides r (wheels.map Wheel.binding) = .ok (u, v) ∧
      u.alpha v = false := by
  rcases bind_eq_error_iff.1 h with h | ⟨⟨u, v⟩, hsides, h⟩
  · exact .inl (error_of_sides h)
  · dsimp only at h
    split at h
    · cases h
    · rename_i halpha
      cases h
      exact .inr ⟨u, v, rfl, hsides, Bool.eq_false_iff.2 halpha⟩

theorem error_of_tryCases (h : goal.tryCases r wheels n = .error e) : e = .outOfFuel r.limit ∨
    ∃ cex, e = goal.unfaithful cex ∧ Assigns (wheels.map Wheel.face) cex.bindings ∧
      goal.sides r cex.bindings = .ok (cex.lhs, cex.rhs) ∧ cex.lhs.alpha cex.rhs = false := by
  induction n generalizing wheels with
  | zero => cases h
  | succ n ih =>
    rcases bind_eq_error_iff.1 h with h | ⟨_, -, h⟩
    · rcases error_of_tryCase h with h | ⟨u, v, rfl, hsides, hdiffer⟩
      · exact .inl h
      · exact .inr ⟨_, rfl, assigns_bindings wheels, hsides, hdiffer⟩
    · rw [← map_face_advance wheels]
      exact ih h

theorem error_of_onSamples (h : goal.onSamples r limit samples = .error e) :
    e = .outOfFuel r.limit ∨ e = goal.undecided ∨ ∃ cex, e = goal.unfaithful cex ∧
    goal.RefutedBy r samples mode cex := by
  unfold onSamples at h
  split at h
  · cases h
    exact .inr (.inl rfl)
  · rename_i wheels hwheels
    dsimp only at h
    split at h
    · cases h
      exact .inr (.inl rfl)
    · rcases bind_eq_error_iff.1 h with h | ⟨_, -, h⟩
      · rcases error_of_tryCases h with h | ⟨cex, rfl, hassigns, hsides, hdiffer⟩
        · exact .inl h
        · rw [(start_of_mapM hwheels).1] at hassigns
          exact .inr (.inr ⟨cex, rfl, .inl hassigns, hsides, hdiffer⟩)
      · cases h

theorem error_of_check (h : goal.check r limit samples mode = .error e) :
    e = .outOfFuel r.limit ∨ e = goal.undecided ∨ ∃ cex, e = goal.unfaithful cex ∧
    goal.RefutedBy r samples mode cex := by
  cases mode with
  | sampling => exact error_of_onSamples h
  | symbolic =>
    unfold check symbolic at h
    rcases bind_eq_error_iff.1 h with h | ⟨⟨u, v⟩, hsides, h⟩
    · exact .inl (error_of_sides h)
    · dsimp only at h
      split at h
      · cases h
      · rename_i halpha
        split at h
        · cases h
          exact .inr (.inr ⟨⟨[], u, v⟩, rfl, .inr ⟨rfl, rfl⟩, hsides, Bool.eq_false_iff.2 halpha⟩)
        · split at h
          · cases h
            exact .inr (.inl rfl)
          · exact error_of_onSamples h

end ClosedTypes.Faithfulness.Goal
