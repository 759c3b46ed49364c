import ClosedTypes.Reduction.Fold
/-!
What folds are made of: literals, operands, and operations on these.
-/

namespace ClosedTypes

variable {t u a b : Term} {args : List Term}

theorem eq_add_of_addend? {k : Int64} (h : t.addend? = some (u, k)) :
    t = .prim .add [u, .int k] := by
  unfold Term.addend? at h
  split at h
  · cases h
    rfl
  · cases h

variable {P : Term → Prop} (literal : ∀ l, P (.lit l))
  (operation : ∀ op a b, P (.prim op [a, b]) ↔ P a ∧ P b)

include literal operation

theorem foldAdd_of_parts (ha : P a) (hb : P b) (h : foldAdd a b = some u) : P u := by
  unfold foldAdd at h
  split at h
  · cases h
    exact literal _
  · cases h
    exact (operation _ _ _).2 ⟨hb, ha⟩
  · split at h
    · cases h
      exact ha
    · obtain ⟨⟨t, k⟩, ht, rfl⟩ := Option.map_eq_some_iff.1 h
      rw [eq_add_of_addend? ht, operation] at ha
      exact (operation _ _ _).2 ⟨ha.1, literal _⟩
  · cases h

theorem foldSub_of_parts (ha : P a) (h : foldSub a b = some u) : P u := by
  unfold foldSub at h
  split at h
  · cases h
    exact literal _
  · cases h
    exact (operation _ _ _).2 ⟨ha, literal _⟩
  · split at h
    · cases h
      exact literal _
    · cases h

theorem foldEq_of_parts (ha : P a) (hb : P b) (h : foldEq a b = some u) : P u := by
  unfold foldEq at h
  split at h
  · cases h
    exact literal _
  · split at h
    · cases h
      exact literal _
    · split at h
      · cases h
        exact (operation _ _ _).2 ⟨hb, ha⟩
      · split at h
        · rename_i hadd _
          cases h
          rw [eq_add_of_addend? hadd, operation] at ha
          exact (operation _ _ _).2 ⟨ha.1, literal _⟩
        · cases h

theorem fold_of_parts {op : Operator} (hargs : ∀ a ∈ args, P a) (h : fold op args = some u) :
    P u := by
  unfold fold at h
  split at h
  · exact foldAdd_of_parts literal operation (hargs _ (by simp)) (hargs _ (by simp)) h
  · exact foldSub_of_parts literal operation (hargs _ (by simp)) h
  · simp only [Option.bind_eq_bind, Option.bind_eq_some_iff, Option.pure_def, Option.some.injEq]
      at h
    obtain ⟨_, -, _, -, rfl⟩ := h
    exact literal _
  · simp only [Option.bind_eq_bind, Option.bind_eq_some_iff, Option.pure_def, Option.some.injEq]
      at h
    obtain ⟨_, -, _, -, rfl⟩ := h
    exact literal _
  · exact foldEq_of_parts literal operation (hargs _ (by simp)) (hargs _ (by simp)) h
  · unfold foldAnd at h
    split at h <;> cases h
    · exact literal _
    · exact literal _
    · exact hargs _ (by simp)
    · exact hargs _ (by simp)
  · unfold foldOr at h
    split at h <;> cases h
    · exact literal _
    · exact literal _
    · exact hargs _ (by simp)
    · exact hargs _ (by simp)
  · simp only [Option.bind_eq_bind, Option.bind_eq_some_iff, Option.pure_def, Option.some.injEq]
      at h
    obtain ⟨_, -, rfl⟩ := h
    exact literal _
  · cases h

end ClosedTypes
