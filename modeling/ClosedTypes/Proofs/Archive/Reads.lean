import ClosedTypes.Archive.Reader
import ClosedTypes.Proofs.Answers
/-!
Readers that find at the front of their input what was written there, whatever comes behind it, and
readers that give up on it.
-/

namespace ClosedTypes.Archive

variable {α β : Type} {r : Reader α} {f : α → Reader β} {a : α} {b : β}
  {bytes front back : List UInt8} {p q : Prop}

/-- In front of any other bytes, `r` reads off `bytes` as `a` and stops right behind them. -/
def Reads (r : Reader α) (bytes : List UInt8) (a : α) : Prop :=
  ∀ rest, Answers r (bytes ++ rest) a rest

theorem Reads.pure (a : α) : Reads (Pure.pure a) [] a := fun _ => answers_pure.2 ⟨rfl, rfl⟩

theorem Reads.bind (h : Reads r front a) (hf : Reads (f a) back b) :
    Reads (r >>= f) (front ++ back) b := by
  intro rest
  rw [List.append_assoc]
  exact (h _).bind_iff.2 (hf rest)

theorem Reads.last (h : Reads r bytes a) (c : α → β) :
    Reads (r >>= fun a => Pure.pure (c a)) bytes (c a) := by
  rw [← List.append_nil bytes]
  exact h.bind (Reads.pure _)

def Rejects (r : Reader α) (bytes : List UInt8) : Prop :=
  ∀ rest, ∃ e, (r.read (bytes ++ rest)).1 = .error e

theorem rejects_throw (e : DecodeError) : Rejects (throw e : Reader α) bytes := fun _ => ⟨e, rfl⟩

theorem read_bind (input : List UInt8) : (r >>= f).read input = match r.read input with
    | (.ok a, left) => (f a).read left
    | (.error e, left) => (.error e, left) := by
  change (match r.read input with | (x, left) => (ExceptT.bindCont f x).run left) = _
  obtain ⟨_ | _, _⟩ := r.read input <;> rfl

theorem Rejects.bind (h : Rejects r front) : Rejects (r >>= f) (front ++ back) := by
  intro rest
  obtain ⟨e, he⟩ := h (back ++ rest)
  refine ⟨e, ?_⟩
  rw [List.append_assoc, read_bind]
  generalize r.read (front ++ (back ++ rest)) = answer at he
  obtain ⟨answer, left⟩ := answer
  cases he
  rfl

theorem Reads.bind_rejects (h : Reads r front a) (hf : Rejects (f a) back) :
    Rejects (r >>= f) (front ++ back) := by
  intro rest
  obtain ⟨e, he⟩ := hf rest
  have ha : r.read (front ++ (back ++ rest)) = (.ok a, back ++ rest) := h _
  refine ⟨e, ?_⟩
  rw [List.append_assoc, read_bind, ha]
  exact he

structure ReadsIf (p : Prop) (r : Reader α) (bytes : List UInt8) (a : α) : Prop where
  reads : p → Reads r bytes a
  rejects : ¬p → Rejects r bytes

theorem ReadsIf.congr (h : ReadsIf p r bytes a) (hpq : p ↔ q) : ReadsIf q r bytes a where
  reads hq := h.reads (hpq.2 hq)
  rejects hq := h.rejects fun hp => hq (hpq.1 hp)

theorem Reads.readsIf (h : Reads r bytes a) (hp : p) : ReadsIf p r bytes a where
  reads _ := h
  rejects hnp := absurd hp hnp

theorem ReadsIf.bind (h : ReadsIf p r front a) (hf : ReadsIf q (f a) back b) :
    ReadsIf (p ∧ q) (r >>= f) (front ++ back) b where
  reads hpq := (h.reads hpq.1).bind (hf.reads hpq.2)
  rejects hpq := by
    by_cases hp : p
    · exact (h.reads hp).bind_rejects (hf.rejects fun hq => hpq ⟨hp, hq⟩)
    · exact (h.rejects hp).bind

theorem Reads.bind_if (h : Reads r front a) (hf : ReadsIf p (f a) back b) :
    ReadsIf p (r >>= f) (front ++ back) b where
  reads hp := h.bind (hf.reads hp)
  rejects hp := h.bind_rejects (hf.rejects hp)

theorem ReadsIf.last (h : ReadsIf p r bytes a) (c : α → β) :
    ReadsIf p (r >>= fun a => Pure.pure (c a)) bytes (c a) := by
  have hpure : ReadsIf True (Pure.pure (c a) : Reader β) [] (c a) := (Reads.pure _).readsIf trivial
  rw [← List.append_nil bytes]
  exact (h.bind hpure).congr (and_iff_left trivial)

theorem readsIf_readMany {item : Reader α} {encode : α → List UInt8} {holds : α → Prop}
    {xs : List α} (h : ∀ x ∈ xs, ReadsIf (holds x) item (encode x) x) :
    ReadsIf (∀ x ∈ xs, holds x) (readMany item xs.length) (xs.flatMap encode) xs := by
  induction xs with
  | nil => exact (Reads.pure []).readsIf nofun
  | cons x xs ih =>
    rw [List.forall_mem_cons] at h
    rw [List.flatMap_cons]
    exact (h.1.bind ((ih h.2).last (x :: ·))).congr List.forall_mem_cons.symm

theorem reads_readMany {item : Reader α} {encode : α → List UInt8} {xs : List α}
    (h : ∀ x ∈ xs, Reads item (encode x) x) :
    Reads (readMany item xs.length) (xs.flatMap encode) xs :=
  (readsIf_readMany fun x hx => (h x hx).readsIf trivial).reads fun _ _ => trivial

/-- With a level for each byte that is left there are enough of them. -/
theorem readsIf_nested {level : Nat → Reader α}
    (h : ∀ depth, bytes.length ≤ depth → ReadsIf p (level depth) bytes a) :
    ReadsIf p (nested level) bytes a := by
  have hdepth (rest : List UInt8) : bytes.length ≤ (bytes ++ rest).length := by
    rw [List.length_append]
    exact Nat.le_add_right _ _
  refine ⟨fun hp rest => ?_, fun hp rest => ?_⟩
  · unfold nested
    rw [answers_bind_of_iff fun _ _ => answers_get]
    exact (h _ (hdepth rest)).reads hp rest
  · exact (h _ (hdepth rest)).rejects hp rest

theorem length_le_flatMap {encode : α → List UInt8} {x : α} {xs : List α} (h : x ∈ xs) :
    (encode x).length ≤ (xs.flatMap encode).length := by
  obtain ⟨before, after, rfl⟩ := List.append_of_mem h
  simp only [List.flatMap_append, List.flatMap_cons, List.length_append]
  omega

theorem count_le_length_flatMap {encode : α → List UInt8} {xs : List α}
    (h : ∀ x ∈ xs, 0 < (encode x).length) :
    xs.length ≤ (xs.flatMap encode).length := by
  induction xs with
  | nil => exact Nat.le_refl 0
  | cons x xs ih =>
    rw [List.forall_mem_cons] at h
    have hrest := ih h.2
    have hx := h.1
    rw [List.flatMap_cons, List.length_append, List.length_cons]
    omega

end ClosedTypes.Archive
