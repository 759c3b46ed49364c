/-!
Finite maps that remember the order in which their keys came in. Writing to a key that is there
keeps its place.
-/

namespace ClosedTypes

structure Index (κ α : Type) where
  entries : List (κ × α)
  deriving DecidableEq, Inhabited

namespace Index

variable {κ α : Type} [DecidableEq κ]

def empty : Index κ α := ⟨[]⟩

def look (k : κ) : List (κ × α) → Option α
  | [] => none
  | (j, v) :: rest => if j = k then some v else look k rest

def find? (m : Index κ α) (k : κ) : Option α := look k m.entries

def contains (m : Index κ α) (k : κ) : Bool := (m.find? k).isSome

def keys (m : Index κ α) : List κ := m.entries.map Prod.fst

def values (m : Index κ α) : List α := m.entries.map Prod.snd

def isEmpty (m : Index κ α) : Bool := m.entries.isEmpty

def put (k : κ) (v : α) : List (κ × α) → List (κ × α)
  | [] => [(k, v)]
  | (j, u) :: rest => if j = k then (k, v) :: rest else (j, u) :: put k v rest

def insert (m : Index κ α) (k : κ) (v : α) : Index κ α := ⟨put k v m.entries⟩

def filter (m : Index κ α) (p : κ → α → Bool) : Index κ α := ⟨m.entries.filter fun e => p e.1 e.2⟩

def erase (m : Index κ α) (k : κ) : Index κ α := m.filter fun j _ => j ≠ k

def mapValues (m : Index κ α) (f : α → α) : Index κ α := ⟨m.entries.map fun e => (e.1, f e.2)⟩

/-- Of two bindings of one key the later one counts. -/
def ofList (bindings : List (κ × α)) : Index κ α :=
  bindings.foldl (fun m b => m.insert b.1 b.2) empty

@[simp] theorem find?_empty (k : κ) : (empty : Index κ α).find? k = none := rfl

theorem look_put (j k : κ) (v : α) (es : List (κ × α)) :
    look j (put k v es) = if k = j then some v else look j es := by
  induction es with
  | nil => rfl
  | cons e es ih =>
    obtain ⟨i, u⟩ := e
    by_cases hi : i = k
    · subst hi
      by_cases hj : i = j <;> simp [put, look, hj]
    · by_cases hj : i = j
      · subst hj
        simp [put, look, hi, Ne.symm hi]
      · simp [put, look, hi, hj, ih]

@[simp] theorem find?_insert (m : Index κ α) (j k : κ) (v : α) :
    (m.insert k v).find? j = if k = j then some v else m.find? j := look_put j k v m.entries

@[simp] theorem find?_erase (m : Index κ α) (j k : κ) :
    (m.erase k).find? j = if j = k then none else m.find? j := by
  obtain ⟨es⟩ := m
  simp only [erase, filter, find?]
  induction es with
  | nil => simp [look]
  | cons e es ih =>
    obtain ⟨i, u⟩ := e
    by_cases hi : i = k
    · subst hi
      by_cases hj : j = i
      · simp_all
      · have hj' := Ne.symm hj
        simp_all [look]
    · by_cases hj : i = j
      · subst hj
        simp [look, hi]
      · simpa [look, hi, hj] using ih

theorem find?_of_find?_erase {m : Index κ α} {j k : κ} {v : α} (h : (m.erase k).find? j = some v) :
    m.find? j = some v := by
  rw [find?_erase] at h
  split at h
  · cases h
  · exact h

end Index

end ClosedTypes
