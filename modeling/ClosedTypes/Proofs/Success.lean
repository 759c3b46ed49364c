/-!
What it takes for a sequence of guarded steps to succeed.
-/

namespace ClosedTypes

variable {ε α β : Type}

@[simp] theorem bind_eq_ok_iff {x : Except ε α} {f : α → Except ε β} {b : β} :
    (x >>= f) = .ok b ↔ ∃ a, x = .ok a ∧ f a = .ok b := by
  cases x <;> simp [bind, Except.bind]

theorem bind_eq_error_iff {x : Except ε α} {f : α → Except ε β} {e : ε} :
    (x >>= f) = .error e ↔ x = .error e ∨ ∃ a, x = .ok a ∧ f a = .error e := by
  cases x <;> simp [bind, Except.bind]

theorem bind_congr_ok {x : Except ε α} {f g : α → Except ε β} (h : ∀ a, x = .ok a → f a = g a) :
    (x >>= f) = (x >>= g) := by
  cases x with
  | error e => rfl
  | ok a => exact h a rfl

@[simp] theorem map_eq_ok_iff {x : Except ε α} {f : α → β} {b : β} :
    f <$> x = .ok b ↔ ∃ a, x = .ok a ∧ f a = b := by
  cases x <;> simp [Functor.map, Except.map]

@[simp] theorem pure_eq_ok_iff {a b : α} :
    (pure a : Except ε α) = .ok b ↔ a = b := by simp [pure, Except.pure]

@[simp] theorem throw_ne_ok {e : ε} {a : α} : (throw e : Except ε α) ≠ .ok a := by
  simp [throw, throwThe, MonadExceptOf.throw]

@[simp] theorem throw_bind {e : ε} {f : α → Except ε β} : (throw e >>= f : Except ε β) = throw e :=
  rfl

@[simp] theorem ite_throw_eq_ok_iff {p : Prop} [Decidable p] {e : ε} {x : Except ε α} {a : α} :
    (if p then throw e else x) = .ok a ↔ ¬p ∧ x = .ok a := by
  by_cases h : p <;> simp [h]

@[simp] theorem ite_error_eq_ok_iff {p : Prop} [Decidable p] {e : ε} {x : Except ε α} {a : α} :
    (if p then .error e else x) = .ok a ↔ ¬p ∧ x = .ok a := by
  by_cases h : p <;> simp [h]

theorem eq_ok_of_toOption {x : Except ε α} {a : α} (h : x.toOption = some a) : x = .ok a := by
  cases x <;> cases h
  rfl

theorem exists_unit {p : Unit → Prop} : (∃ u, p u) ↔ p () := ⟨fun ⟨_, h⟩ => h, fun h => ⟨_, h⟩⟩

@[simp] theorem exists_eq_ok_unit {x : Except ε Unit} : (∃ u, x = .ok u) ↔ x = .ok () := exists_unit

section

variable {f g : α → Except ε β} {f' g' : α → Except ε (List β)} {l : List α} {bs : List β} {b : β}

theorem mapM_congr (h : ∀ a ∈ l, f a = g a) : l.mapM f = l.mapM g := by
  induction l with
  | nil => rfl
  | cons a l ih =>
    rw [List.forall_mem_cons] at h
    rw [List.mapM_cons, List.mapM_cons, h.1, ih h.2]

theorem flatMapM_congr (h : ∀ a ∈ l, f' a = g' a) : l.flatMapM f' = l.flatMapM g' := by
  induction l with
  | nil => rfl
  | cons a l ih =>
    rw [List.forall_mem_cons] at h
    rw [List.flatMapM_cons, List.flatMapM_cons, h.1, ih h.2]

theorem forM_eq_ok_iff {f : α → Except ε Unit} : l.forM f = .ok () ↔ ∀ a ∈ l, f a = .ok () := by
  induction l with
  | nil => exact iff_of_true rfl nofun
  | cons a l ih =>
    change (f a >>= fun _ => l.forM f) = .ok () ↔ _
    rw [bind_eq_ok_iff, exists_unit, ih, List.forall_mem_cons]

theorem exists_of_mem_mapM (h : l.mapM f = .ok bs) (hb : b ∈ bs) : ∃ a ∈ l, f a = .ok b := by
  induction l generalizing bs with
  | nil =>
    cases h
    cases hb
  | cons a l ih =>
    simp only [List.mapM_cons, bind_eq_ok_iff, pure_eq_ok_iff] at h
    obtain ⟨b', hb', bs', hbs', rfl⟩ := h
    rcases List.mem_cons.1 hb with rfl | hb
    · exact ⟨a, List.mem_cons_self, hb'⟩
    · exact (ih hbs' hb).imp fun _ => And.imp_left (List.mem_cons_of_mem a)

theorem exists_split_of_mapM_eq_error {e : ε} (h : l.mapM f = .error e) :
    ∃ before a after, l = before ++ a :: after ∧ f a = .error e ∧
    ∀ a' ∈ before, ∃ b, f a' = .ok b := by
  induction l with
  | nil => cases h
  | cons a l ih =>
    rw [List.mapM_cons, bind_eq_error_iff] at h
    rcases h with h | ⟨b, hb, h⟩
    · exact ⟨[], a, l, rfl, h, nofun⟩
    · rcases bind_eq_error_iff.1 h with h | ⟨bs, -, h⟩
      · obtain ⟨before, a', after, rfl, ha, hbefore⟩ := ih h
        exact ⟨a :: before, a', after, rfl, ha, List.forall_mem_cons.2 ⟨⟨b, hb⟩, hbefore⟩⟩
      · cases h

theorem map_eq_map_of_mapM {γ : Type} {p : β → γ} {q : α → γ} (h : l.mapM f = .ok bs)
    (hpq : ∀ a b, f a = .ok b → p b = q a) :
    bs.map p = l.map q := by
  induction l generalizing bs with
  | nil =>
    cases h
    rfl
  | cons a l ih =>
    simp only [List.mapM_cons, bind_eq_ok_iff, pure_eq_ok_iff] at h
    obtain ⟨b, hb, bs', hbs', rfl⟩ := h
    rw [List.map_cons, List.map_cons, hpq a b hb, ih hbs']

theorem exists_mapM_eq_ok {γ : Type} {p : β → γ} {q : α → γ}
    (h : ∀ a ∈ l, ∃ b, f a = .ok b ∧ p b = q a) :
    ∃ bs, l.mapM f = .ok bs ∧ bs.map p = l.map q := by
  induction l with
  | nil => exact ⟨[], rfl, rfl⟩
  | cons a l ih =>
    obtain ⟨⟨b, hb, hpq⟩, hl⟩ := List.forall_mem_cons.1 h
    obtain ⟨bs, hbs, hmap⟩ := ih hl
    refine ⟨b :: bs, ?_, by rw [List.map_cons, List.map_cons, hpq, hmap]⟩
    rw [List.mapM_cons, hb, hbs]
    rfl

theorem exists_flatMapM_eq_ok {γ : Type} {p : β → γ} {q : α → List γ}
    (h : ∀ a ∈ l, ∃ bs, f' a = .ok bs ∧ bs.map p = q a) :
    ∃ bs, l.flatMapM f' = .ok bs ∧ bs.map p = l.flatMap q := by
  induction l with
  | nil => exact ⟨[], rfl, rfl⟩
  | cons a l ih =>
    obtain ⟨⟨bs, hbs, hpq⟩, hl⟩ := List.forall_mem_cons.1 h
    obtain ⟨cs, hcs, hmap⟩ := ih hl
    refine ⟨bs ++ cs, ?_, by rw [List.map_append, List.flatMap_cons, hpq, hmap]⟩
    rw [List.flatMapM_cons, hbs, hcs]
    rfl

theorem exists_of_mem_flatMapM (h : l.flatMapM f' = .ok bs) (hb : b ∈ bs) :
    ∃ a ∈ l, ∃ cs, f' a = .ok cs ∧ b ∈ cs := by
  induction l generalizing bs with
  | nil =>
    cases h
    cases hb
  | cons a l ih =>
    simp only [List.flatMapM_cons, bind_eq_ok_iff, pure_eq_ok_iff] at h
    obtain ⟨cs, hcs, bs', hbs', rfl⟩ := h
    rcases List.mem_append.1 hb with hb | hb
    · exact ⟨a, List.mem_cons_self, cs, hcs, hb⟩
    · exact (ih hbs' hb).imp fun _ => And.imp_left (List.mem_cons_of_mem a)

end

end ClosedTypes
