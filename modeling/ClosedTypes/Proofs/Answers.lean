import ClosedTypes.Proofs.Success
/-!
Runs that may fail and keep a state, taken apart step by step when they come to an answer: the
checker's and the readers'.
-/

namespace ClosedTypes

variable {ε σ α β : Type} {s s' : σ} {a : α} {b : β}

/-- From `s` on, `m` answers `a` and leaves `s'` behind. -/
def Answers (m : ExceptT ε (StateM σ) α) (s : σ) (a : α) (s' : σ) : Prop :=
  @Eq (Except ε α × σ) (m.run s) (.ok a, s')

theorem answers_iff_of_run_eq {m : ExceptT ε (StateM σ) α} {a' : α} {s₁ : σ}
    (h : m.run s = (.ok a', s₁)) :
    Answers m s a s' ↔ a' = a ∧ s₁ = s' := by
  unfold Answers
  rw [h, Prod.mk.injEq, Except.ok.injEq]

@[simp] theorem answers_pure {a' : α} :
    Answers (pure a' : ExceptT ε (StateM σ) α) s a s' ↔ a' = a ∧ s = s' :=
  answers_iff_of_run_eq rfl

@[simp] theorem answers_bind {m : ExceptT ε (StateM σ) α} {f : α → ExceptT ε (StateM σ) β} :
    Answers (m >>= f) s b s' ↔ ∃ a s₁, Answers m s a s₁ ∧ Answers (f a) s₁ b s' := by
  have step : (m >>= f).run s = match m.run s with
    | (.ok a, s₁) => (f a).run s₁
    | (.error e, s₁) => (.error e, s₁) := by
    change (match m.run s with | (r, s₁) => (ExceptT.bindCont f r).run s₁) = _
    obtain ⟨_ | _, _⟩ := m.run s <;> rfl
  unfold Answers
  rw [step]
  obtain ⟨e | a, s₁⟩ := m.run s
  · simp
  · refine ⟨fun h => ⟨a, s₁, rfl, h⟩, ?_⟩
    rintro ⟨_, _, h, hb⟩
    cases h
    exact hb

theorem answers_bind_of_iff {m : ExceptT ε (StateM σ) α} {f : α → ExceptT ε (StateM σ) β} {s₁ : σ}
    (h : ∀ a' s', Answers m s a' s' ↔ a = a' ∧ s₁ = s') :
    Answers (m >>= f) s b s' ↔ Answers (f a) s₁ b s' := by
  rw [answers_bind]
  constructor
  · rintro ⟨_, _, hm, hf⟩
    obtain ⟨rfl, rfl⟩ := (h _ _).1 hm
    exact hf
  · exact fun hf => ⟨a, s₁, (h a s₁).2 ⟨rfl, rfl⟩, hf⟩

theorem Answers.bind_iff {m : ExceptT ε (StateM σ) α} {f : α → ExceptT ε (StateM σ) β}
    {s₁ : σ} (h : Answers m s a s₁) :
    Answers (m >>= f) s b s' ↔ Answers (f a) s₁ b s' :=
  answers_bind_of_iff fun _ _ => answers_iff_of_run_eq h

theorem answers_unit_bind {m : ExceptT ε (StateM σ) Unit} {f : Unit → ExceptT ε (StateM σ) β} :
    Answers (m >>= f) s b s' ↔ ∃ s₁, Answers m s () s₁ ∧ Answers (f ()) s₁ b s' := by
  rw [answers_bind, exists_unit]

@[simp] theorem not_answers_throw {e : ε} : ¬Answers (throw e : ExceptT ε (StateM σ) α) s a s' :=
  nofun

@[simp] theorem answers_lift {x : Except ε α} :
    Answers (liftM x : ExceptT ε (StateM σ) α) s a s' ↔ x = .ok a ∧ s = s' := by
  cases x with
  | error e => exact ⟨nofun, fun h => nomatch h.1⟩
  | ok a' =>
    rw [Except.ok.injEq]
    exact answers_iff_of_run_eq rfl

theorem answers_lift_bind {x : Except ε α} {f : α → ExceptT ε (StateM σ) β} :
    Answers (liftM x >>= f) s b s' ↔ ∃ a, x = .ok a ∧ Answers (f a) s b s' := by
  rw [answers_bind]
  simp only [answers_lift]
  exact ⟨fun ⟨a, _, ⟨hx, hs⟩, h⟩ => ⟨a, hx, hs ▸ h⟩, fun ⟨a, hx, h⟩ => ⟨a, s, ⟨hx, rfl⟩, h⟩⟩

@[simp] theorem answers_ite {p : Prop} [Decidable p] {m m' : ExceptT ε (StateM σ) α} :
    Answers (if p then m else m') s a s' ↔ p ∧ Answers m s a s' ∨ ¬p ∧ Answers m' s a s' := by
  by_cases h : p <;> simp [h]

@[simp] theorem answers_adapt {ε' : Type} {m : ExceptT ε (StateM σ) α} {f : ε → ε'} :
    Answers (m.adapt f) s a s' ↔ Answers m s a s' := by
  have step : (m.adapt f).run s = ((m.run s).1.mapError f, (m.run s).2) := rfl
  unfold Answers
  rw [step]
  rcases m.run s with ⟨e | a', s₁⟩
  · show (Except.error (f e), s₁) = _ ↔ _
    simp
  · show (Except.ok a', s₁) = _ ↔ _
    simp

@[simp] theorem answers_map {m : ExceptT ε (StateM σ) α} {f : α → β} :
    Answers (f <$> m) s b s' ↔ ∃ a, Answers m s a s' ∧ f a = b := by
  rw [map_eq_pure_bind]
  simp only [answers_bind, answers_pure]
  exact ⟨fun ⟨a, _, h, hb, e⟩ => ⟨a, e ▸ h, hb⟩, fun ⟨a, h, hb⟩ => ⟨a, s', h, hb, rfl⟩⟩

@[simp] theorem answers_get {t : σ} :
    Answers (get : ExceptT ε (StateM σ) σ) s t s' ↔ s = t ∧ s = s' :=
  answers_iff_of_run_eq rfl

@[simp] theorem answers_set {t : σ} {u : Unit} :
    Answers (set t : ExceptT ε (StateM σ) Unit) s u s' ↔ t = s' :=
  (answers_iff_of_run_eq rfl).trans (and_iff_right rfl)

@[simp] theorem answers_modify {f : σ → σ} {u : Unit} :
    Answers (modify f : ExceptT ε (StateM σ) Unit) s u s' ↔ f s = s' :=
  (answers_iff_of_run_eq rfl).trans (and_iff_right rfl)

end ClosedTypes
