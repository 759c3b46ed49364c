import ClosedTypes.Faithfulness
import ClosedTypes.Proofs.Reduction.Lockstep
/-!
What a faithfulness check asks of an evaluator: the normal forms of its goals' sides, at literals.
Evaluators that agree on these come to the same verdicts.
-/

namespace ClosedTypes

namespace Evaluator

variable {known : Use → Prop} {r r' : Evaluator} {t u : Term}

structure Agree (known : Use → Prop) (r r' : Evaluator) : Prop where
  rules : Rules.Agree known r.rules r'.rules
  covered : r.rules.Over known
  limit : r'.limit = r.limit
  remaining : r'.remaining = r.remaining

theorem fst_ask {α : Type} (r : Evaluator) (question : Rules → Nat → Option (α × Nat)) :
    (r.ask question).1 = match question r.rules r.remaining with
      | some (a, _) => .ok a
      | none => .error (.outOfFuel r.limit) := by
  unfold ask
  rcases question r.rules r.remaining with _ | ⟨a, m⟩ <;> rfl

theorem Agree.normalize_eq (h : r.Agree known r') (ht : t.Over known) :
    (r'.normalize t).1 = (r.normalize t).1 := by
  unfold Evaluator.normalize
  rw [fst_ask, fst_ask, h.limit, h.remaining, h.rules.normalize_eq h.covered ht]

theorem Agree.equal_eq (h : r.Agree known r') (ht : t.Over known) (hu : u.Over known) :
    (r'.equal t u).1 = (r.equal t u).1 := by
  unfold Evaluator.equal
  rw [fst_ask, fst_ask, h.limit, h.remaining, h.rules.equal_eq h.covered ht hu]

end Evaluator

namespace Faithfulness

variable {known : Use → Prop} {r r' : Evaluator} {goal : Goal} {limit n : Nat}
  {samples : List Literal}
  {bindings : List (Name × Term)} {wheels : List Wheel}

theorem literal_of_mem_bindings {p : Name × Term} (h : p ∈ wheels.map Wheel.binding) :
    ∃ l, p.2 = .lit l := by
  obtain ⟨w, -, rfl⟩ := List.mem_map.1 h
  exact ⟨_, rfl⟩

namespace Goal

structure Over (known : Use → Prop) (goal : Goal) : Prop where
  lhs : goal.lhs.Over known
  rhs : goal.rhs.Over known

section

variable (h : r.Agree known r') (hgoal : goal.Over known)

include h hgoal

theorem sides_eq (hb : ∀ p ∈ bindings, ∃ l, p.2 = .lit l) :
    goal.sides r' bindings = goal.sides r bindings := by
  have hover : ∀ p ∈ bindings, p.2.Over known := fun p hp => by
    obtain ⟨l, hl⟩ := hb p hp
    exact hl ▸ Term.over_lit
  unfold sides
  dsimp only
  rw [h.normalize_eq (hgoal.lhs.subst_ofList hover), h.normalize_eq (hgoal.rhs.subst_ofList hover)]

theorem tryCase_eq : goal.tryCase r' wheels = goal.tryCase r wheels := by
  unfold tryCase
  dsimp only
  rw [sides_eq h hgoal fun _ => literal_of_mem_bindings]

theorem tryCases_eq : goal.tryCases r' wheels n = goal.tryCases r wheels n := by
  induction n generalizing wheels with
  | zero => rfl
  | succ n ih =>
    unfold tryCases
    rw [tryCase_eq h hgoal, ih]

theorem onSamples_eq : goal.onSamples r' limit samples = goal.onSamples r limit samples := by
  unfold onSamples
  simp only [tryCases_eq h hgoal]

theorem check_eq (mode : Mode) :
    goal.check r' limit samples mode = goal.check r limit samples mode := by
  cases mode with
  | sampling => exact onSamples_eq h hgoal
  | symbolic =>
    unfold check symbolic
    rw [sides_eq h hgoal (List.forall_mem_nil _)]
    simp only [onSamples_eq h hgoal]

end

end Goal

end Faithfulness

end ClosedTypes
