import ClosedTypes.Index
import Mathlib.Data.List.Permutation
/-!
Finite maps seen as lists of bindings: where a new key goes, and which bindings a write can bring
in.
-/

namespace ClosedTypes.Index

variable {κ α : Type} [DecidableEq κ]

theorem look_eq_none_iff {k : κ} {es : List (κ × α)} : look k es = none ↔ ∀ p ∈ es, p.1 ≠ k := by
  induction es with
  | nil => simp [look]
  | cons p es ih =>
    by_cases h : p.1 = k
    · simp [look, h]
    · simp [look, h, ih]

theorem mem_of_look {k : κ} {v : α} {es : List (κ × α)} (h : look k es = some v) : (k, v) ∈ es := by
  induction es with
  | nil => cases h
  | cons p es ih =>
    obtain ⟨j, u⟩ := p
    by_cases hj : j = k
    · subst hj
      simp only [look, if_true, Option.some.injEq] at h
      subst h
      exact List.mem_cons_self
    · simp only [look, if_neg hj] at h
      exact List.mem_cons_of_mem _ (ih h)

theorem mem_put {k : κ} {v : α} {p : κ × α} {es : List (κ × α)} (h : p ∈ put k v es) :
    p = (k, v) ∨ p ∈ es := by
  induction es with
  | nil => exact .inl (List.mem_singleton.1 h)
  | cons q es ih =>
    by_cases hq : q.1 = k
    · simp only [put, if_pos hq, List.mem_cons] at h
      exact h.imp_right (List.mem_cons_of_mem _)
    · simp only [put, if_neg hq, List.mem_cons] at h
      rcases h with rfl | h
      · exact .inr List.mem_cons_self
      · exact (ih h).imp_right (List.mem_cons_of_mem _)

theorem put_of_look_eq_none {k : κ} {v : α} {es : List (κ × α)} (h : look k es = none) :
    put k v es = es ++ [(k, v)] := by
  induction es with
  | nil => rfl
  | cons p es ih =>
    rw [look_eq_none_iff] at h
    have hp : p.1 ≠ k := h p List.mem_cons_self
    have htail : look k es = none := look_eq_none_iff.2 fun q hq => h q (List.mem_cons_of_mem _ hq)
    simp only [put, if_neg hp, ih htail, List.cons_append]

theorem map_put_of_look {β : Type} {f : κ × α → β} {k : κ} {u v : α} {es : List (κ × α)}
    (h : look k es = some u) (hf : f (k, v) = f (k, u)) : (put k v es).map f = es.map f := by
  induction es with
  | nil => cases h
  | cons p es ih =>
    obtain ⟨j, w⟩ := p
    by_cases hj : j = k
    · subst hj
      simp only [look, if_true, Option.some.injEq] at h
      subst h
      simp only [put, if_true, List.map_cons, hf]
    · simp only [look, if_neg hj] at h
      simp only [put, if_neg hj, List.map_cons, ih h]

theorem contains_iff {m : Index κ α} {k : κ} : m.contains k = true ↔ ∃ v, m.find? k = some v :=
  Option.isSome_iff_exists

@[simp] theorem contains_insert (m : Index κ α) (j k : κ) (v : α) :
    (m.insert k v).contains j = (decide (k = j) || m.contains j) := by
  unfold contains
  rw [find?_insert]
  split <;> simp_all

theorem find?_mapValues (m : Index κ α) (f : α → α) (k : κ) :
    (m.mapValues f).find? k = (m.find? k).map f := by
  obtain ⟨es⟩ := m
  unfold mapValues find?
  induction es with
  | nil => rfl
  | cons p es ih =>
    by_cases h : p.1 = k
    · simp [look, h]
    · simpa [look, h] using ih

theorem find?_filter_key (m : Index κ α) (p : κ → Bool) (k : κ) :
    (m.filter fun j _ => p j).find? k = if p k then m.find? k else none := by
  obtain ⟨es⟩ := m
  unfold filter find?
  induction es with
  | nil => simp [look]
  | cons e es ih =>
    obtain ⟨j, v⟩ := e
    by_cases hj : j = k
    · subst hj
      cases hp : p j <;> simp_all [look]
    · cases hp : p j <;> simp_all [look]

theorem ofList_snoc (l : List (κ × α)) (k : κ) (v : α) :
    ofList (l ++ [(k, v)]) = (ofList l).insert k v := by
  simp [ofList]

theorem find?_ofList (l : List (κ × α)) (k : κ) : (ofList l).find? k = look k l.reverse := by
  obtain ⟨r, rfl⟩ : ∃ r, l = r.reverse := ⟨l.reverse, l.reverse_reverse.symm⟩
  rw [List.reverse_reverse]
  induction r with
  | nil => rfl
  | cons b r ih =>
    obtain ⟨j, v⟩ := b
    rw [List.reverse_cons, ofList_snoc, find?_insert, ih]
    rfl

theorem mem_of_find?_ofList {l : List (κ × α)} {k : κ} {v : α} (h : (ofList l).find? k = some v) :
    (k, v) ∈ l := by
  rw [find?_ofList] at h
  exact List.mem_reverse.1 (mem_of_look h)

theorem find?_ofList_eq_none_iff {l : List (κ × α)} {k : κ} :
    (ofList l).find? k = none ↔ k ∉ l.map Prod.fst := by
  rw [find?_ofList, look_eq_none_iff, List.mem_map]
  exact ⟨fun h ⟨p, hp, hk⟩ => h p (List.mem_reverse.2 hp) hk, fun h p hp hk =>
    h ⟨p, List.mem_reverse.1 hp, hk⟩⟩

end ClosedTypes.Index
