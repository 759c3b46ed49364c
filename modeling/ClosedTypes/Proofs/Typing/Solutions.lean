import ClosedTypes.Proofs.Ty.Bind
import ClosedTypes.Typing.Solutions
import Mathlib.Data.Finset.Card
import Mathlib.Data.Finset.Range
/-!
Solutions without cycles. Along them every walk is shorter than the number of metavariables, so the
bounded walks of the checker reach the end: what is zonked holds no solved metavariable, and what is
resolved is not one.
-/

namespace ClosedTypes.Solutions

variable {s : Solutions} {i j k : UInt32} {t u : Ty}

theorem toNat_lt_of_solution? (h : s.solution? i = some t) : i.toNat < s.size := by
  unfold solution? at h
  by_contra hge
  rw [Array.getElem?_eq_none (by simpa [size] using hge)] at h
  cases h

def Ranked (s : Solutions) (rank : UInt32 → Nat) : Prop :=
  ∀ i t j, s.solution? i = some t → t.mentionsMetavar j = true → s.solution? j ≠ none →
    rank j < rank i

def Acyclic (s : Solutions) : Prop := ∃ rank, s.Ranked rank

theorem Acyclic.bounded (h : s.Acyclic) :
    ∃ rank, s.Ranked rank ∧ ∀ i, s.solution? i ≠ none → rank i < s.size := by
  classical
  obtain ⟨rank, hr⟩ := h
  let lower (i : UInt32) : Finset Nat :=
    (Finset.range s.size).filter fun k => s.solution? (.ofNat k) ≠ none ∧ rank (.ofNat k) < rank i
  have mem_lower {i j : UInt32} (hj : s.solution? j ≠ none) (hlt : rank j < rank i) :
      j.toNat ∈ lower i := by
    obtain ⟨t, ht⟩ := Option.ne_none_iff_exists'.1 hj
    rw [Finset.mem_filter, Finset.mem_range, UInt32.ofNat_toNat]
    exact ⟨toNat_lt_of_solution? ht, hj, hlt⟩
  have not_mem_lower (i : UInt32) : i.toNat ∉ lower i := by
    rw [Finset.mem_filter, UInt32.ofNat_toNat]
    exact fun h => Nat.lt_irrefl _ h.2.2
  refine ⟨fun i => (lower i).card, fun i t j ht hj hs => ?_, fun i hi => ?_⟩
  · have hlt : rank j < rank i := hr i t j ht hj hs
    refine Finset.card_lt_card ⟨fun k hk => ?_, fun hsub =>
      not_mem_lower j (hsub (mem_lower hs hlt))⟩
    rw [Finset.mem_filter] at hk ⊢
    exact ⟨hk.1, hk.2.1, hk.2.2.trans hlt⟩
  · obtain ⟨t, ht⟩ := Option.ne_none_iff_exists'.1 hi
    have hmem : i.toNat ∈ Finset.range s.size := Finset.mem_range.2 (toNat_lt_of_solution? ht)
    calc (lower i).card < (Finset.range s.size).card :=
          Finset.card_lt_card ⟨Finset.filter_subset _ _, fun hsub => not_mem_lower i (hsub hmem)⟩
      _ = s.size := Finset.card_range _

theorem zonkWithin_succ_eq_fill (s : Solutions) (n : Nat) (t : Ty) :
    s.zonkWithin (n + 1) t = t.fill fun i => ((s.solution? i).map (s.zonkWithin n)).getD
      (.metavar i) :=
  Ty.substMetavars_eq_bind t _

theorem zonk_metavar_of_open (h : s.solution? i = none) : s.zonk (.metavar i) = .metavar i := by
  unfold zonk
  cases s.size with
  | zero => rfl
  | succ n => rw [zonkWithin_succ_eq_fill, Ty.fill, Ty.bind_metavar, h]; rfl

theorem zonk_eq_fill (s : Solutions) (t : Ty) : s.zonk t = t.fill fun i => s.zonk (.metavar i) := by
  unfold zonk
  cases s.size with
  | zero => exact (Ty.bind_id t).symm
  | succ n => simp only [zonkWithin_succ_eq_fill, Ty.bind_metavar]

theorem zonkWithin_succ {rank : UInt32 → Nat} (hr : s.Ranked rank) {n : Nat}
    (h : ∀ j, t.mentionsMetavar j = true → s.solution? j ≠ none → rank j < n) :
    s.zonkWithin (n + 1) t = s.zonkWithin n t := by
  induction n generalizing t with
  | zero =>
    have unsolved (j : UInt32) (hj : t.mentionsMetavar j = true) : s.solution? j = none := by
      by_contra hs
      exact absurd (h j hj hs) (Nat.not_lt_zero _)
    rw [zonkWithin_succ_eq_fill]
    exact Ty.bind_eq_self (fun _ _ => rfl) fun j hj => by rw [unsolved j hj]; rfl
  | succ n ih =>
    rw [zonkWithin_succ_eq_fill, zonkWithin_succ_eq_fill]
    refine Ty.bind_congr (fun _ _ => rfl) fun j hj => ?_
    cases hs : s.solution? j with
    | none => rfl
    | some u =>
      -- a solution mentions only metavariables of lower rank, so that one level less is enough
      -- below it
      have hj : rank j < n + 1 := h j hj (by rw [hs]; simp)
      have hu (k : UInt32) (hk : u.mentionsMetavar k = true) (hsk : s.solution? k ≠ none) :
          rank k < n := by
        have := hr j u k hs hk hsk
        omega
      exact ih hu

theorem Acyclic.zonk_metavar (h : s.Acyclic) (hs : s.solution? i = some t) :
    s.zonk (.metavar i) = s.zonk t := by
  obtain ⟨rank, hr, hb⟩ := h.bounded
  have hi : rank i < s.size := hb i (by rw [hs]; simp)
  unfold zonk
  cases hn : s.size with
  | zero => omega
  | succ n =>
    have ht (j : UInt32) (hj : t.mentionsMetavar j = true) (hsj : s.solution? j ≠ none) :
        rank j < n := by
      have := hr i t j hs hj hsj
      omega
    rw [zonkWithin_succ hr ht, zonkWithin_succ_eq_fill, Ty.fill, Ty.bind_metavar, hs]
    rfl

def Satisfies (σ : UInt32 → Ty) (s : Solutions) : Prop :=
  ∀ i t, s.solution? i = some t → σ i = t.fill σ

variable {σ : UInt32 → Ty}

theorem Satisfies.fill_zonkWithin (h : Satisfies σ s) (n : Nat) (t : Ty) :
    (s.zonkWithin n t).fill σ = t.fill σ := by
  induction n generalizing t with
  | zero => rfl
  | succ n ih =>
    rw [zonkWithin_succ_eq_fill, Ty.fill, Ty.bind_bind]
    refine Ty.bind_congr (fun _ _ => rfl) fun j _ => ?_
    cases hs : s.solution? j with
    | none => rfl
    | some u => exact (ih u).trans (h j u hs).symm

theorem Satisfies.fill_zonk (h : Satisfies σ s) (t : Ty) : (s.zonk t).fill σ = t.fill σ :=
  h.fill_zonkWithin s.size t

theorem Satisfies.fill_resolveWithin (h : Satisfies σ s) (n : Nat) (t : Ty) :
    (s.resolveWithin n t).fill σ = t.fill σ := by
  induction n generalizing t with
  | zero => rfl
  | succ n ih =>
    cases t with
    | metavar i =>
      rw [resolveWithin]
      cases hs : s.solution? i with
      | none => rfl
      | some u => exact (ih u).trans (h i u hs).symm
    | _ => rfl

theorem Satisfies.fill_resolve (h : Satisfies σ s) (t : Ty) : (s.resolve t).fill σ = t.fill σ :=
  h.fill_resolveWithin s.size t

theorem Acyclic.satisfies (h : s.Acyclic) (τ : UInt32 → Ty) :
    Satisfies (fun i => (s.zonk (.metavar i)).fill τ) s := by
  intro i t hs
  change (s.zonk (.metavar i)).fill τ = _
  rw [h.zonk_metavar hs, zonk_eq_fill, Ty.fill, Ty.bind_bind]
  rfl

/-- The metavariable `k` is open, and in `t` or in a solution that `t` leads to. -/
inductive LeadsTo (s : Solutions) (k : UInt32) : Ty → Prop where
  | here {t : Ty} : s.solution? k = none → t.mentionsMetavar k = true → LeadsTo s k t
  | through {t u : Ty} {j : UInt32} : t.mentionsMetavar j = true → s.solution? j = some u →
    LeadsTo s k u → LeadsTo s k t

theorem leadsTo_metavar_of_ne (hne : j ≠ k) :
    s.LeadsTo k (.metavar j) ↔ ∃ u, s.solution? j = some u ∧ s.LeadsTo k u := by
  refine ⟨fun h => ?_, fun ⟨u, hs, hl⟩ => .through (by simp) hs hl⟩
  cases h with
  | here _ hm => exact absurd (by simpa using hm) hne
  | @through _ u l hm hs hl =>
    have : j = l := by simpa using hm
    subst this
    exact ⟨u, hs, hl⟩

theorem mentionsMetavar_zonkWithin {rank : UInt32 → Nat} (hr : s.Ranked rank) {n : Nat}
    (h : ∀ j, t.mentionsMetavar j = true → s.solution? j ≠ none → rank j < n) :
    (s.zonkWithin n t).mentionsMetavar k = true ↔ s.LeadsTo k t := by
  induction n generalizing t with
  | zero =>
    have unsolved (j : UInt32) (hj : t.mentionsMetavar j = true) : s.solution? j = none := by
      by_contra hs
      exact absurd (h j hj hs) (Nat.not_lt_zero _)
    constructor
    · exact fun hk => .here (unsolved k hk) hk
    · intro hk
      cases hk with
      | here _ hk => exact hk
      | through hj hs _ =>
        rw [unsolved _ hj] at hs
        cases hs
  | succ n ih =>
    have deeper {j : UInt32} {u : Ty} (hj : t.mentionsMetavar j = true)
        (hs : s.solution? j = some u) :
        (s.zonkWithin n u).mentionsMetavar k = true ↔ s.LeadsTo k u := by
      have hlt : rank j < n + 1 := h j hj (by rw [hs]; simp)
      refine ih fun l hl hsl => ?_
      have := hr j u l hs hl hsl
      omega
    rw [zonkWithin_succ_eq_fill, Ty.fill, Ty.mentionsMetavar_bind]
    constructor
    · rintro (⟨x, _, hx⟩ | ⟨j, hj, hk⟩)
      · cases hx
      · cases hs : s.solution? j with
        | none =>
          rw [hs] at hk
          have : j = k := by simpa using hk
          subst this
          exact .here hs hj
        | some u =>
          rw [hs] at hk
          exact .through hj hs ((deeper hj hs).1 hk)
    · intro hk
      cases hk with
      | here hs hk => exact .inr ⟨k, hk, by rw [hs]; simp⟩
      | through hj hs hk => exact .inr ⟨_, hj, by rw [hs]; exact (deeper hj hs).2 hk⟩

theorem Acyclic.mentionsMetavar_zonk (h : s.Acyclic) :
    (s.zonk t).mentionsMetavar k = true ↔ s.LeadsTo k t := by
  obtain ⟨rank, hr, hb⟩ := h.bounded
  exact mentionsMetavar_zonkWithin hr fun j _ hs => hb j hs

theorem Acyclic.occurs_iff (h : s.Acyclic) : s.occurs i t = true ↔ s.LeadsTo i t :=
  h.mentionsMetavar_zonk

theorem LeadsTo.isOpen (h : s.LeadsTo k t) : s.solution? k = none := by
  induction h with
  | here hs _ => exact hs
  | through _ _ _ ih => exact ih

theorem isSolved_resolveWithin {rank : UInt32 → Nat} (hr : s.Ranked rank) {n : Nat}
    (h : ∀ j, t = .metavar j → s.solution? j ≠ none → rank j < n) :
    s.isSolved (s.resolveWithin n t) = false := by
  induction n generalizing t with
  | zero =>
    cases t with
    | metavar j =>
      have : s.solution? j = none := by
        by_contra hs
        exact absurd (h j rfl hs) (Nat.not_lt_zero _)
      simp [resolveWithin, isSolved, this]
    | _ => rfl
  | succ n ih =>
    cases t with
    | metavar j =>
      rw [resolveWithin]
      cases hs : s.solution? j with
      | none => simp [isSolved, hs]
      | some u =>
        have hj : rank j < n + 1 := h j rfl (by rw [hs]; simp)
        refine ih fun k hk hsk => ?_
        have := hr j u k hs (by rw [hk]; simp) hsk
        omega
    | _ => rfl

theorem Acyclic.isSolved_resolve (h : s.Acyclic) (t : Ty) : s.isSolved (s.resolve t) = false := by
  obtain ⟨rank, hr, hb⟩ := h.bounded
  exact isSolved_resolveWithin hr fun j _ hs => hb j hs

def set (s : Solutions) (i : UInt32) (t : Ty) : Solutions :=
  ⟨s.slots.setIfInBounds i.toNat (some t)⟩

@[simp] theorem size_set (s : Solutions) (i : UInt32) (t : Ty) :
    (s.set i t).size = s.size := by simp [set, size]

theorem solution?_set (hi : i.toNat < s.size) (j : UInt32) :
    (s.set i t).solution? j = if j = i then some t else s.solution? j := by
  unfold solution? set
  rw [Array.getElem?_setIfInBounds]
  by_cases h : j = i
  · subst h
    rw [if_pos rfl, if_pos rfl, if_pos (by simpa [size] using hi)]
    rfl
  · have : i.toNat ≠ j.toNat := fun e => h (UInt32.toNat_inj.1 e.symm)
    rw [if_neg this, if_neg h]

theorem assign_eq (s : Solutions) (i : UInt32) (t : Ty) :
    s.assign i t = if s.occurs i t = false ∧ i.toNat < s.size then (true, s.set i t) else
      (false, s) := by
  unfold assign
  cases s.occurs i t <;> simp [set]

/-- A new rank: the metavariables that lead to `i` move above it, and it moves above all others. -/
theorem Acyclic.set (h : s.Acyclic) (hopen : s.solution? i = none) (hi : i.toNat < s.size)
    (ht : ¬s.LeadsTo i t) :
    (s.set i t).Acyclic := by
  classical
  obtain ⟨rank, hr, hb⟩ := h.bounded
  -- above every old rank there is room from `s.size` on
  refine ⟨fun j => if j = i then s.size else if s.LeadsTo i (.metavar j) then
    s.size + 1 + rank j else rank j, ?_⟩
  intro j u k hs hk hsk
  rw [solution?_set hi] at hs hsk
  by_cases hj : j = i
  · subst hj
    rw [if_pos rfl, Option.some.injEq] at hs
    subst hs
    have hkj : k ≠ j := fun e => ht (.here hopen (e ▸ hk))
    rw [if_neg hkj] at hsk
    have hlead : ¬s.LeadsTo j (.metavar k) := fun hl => by
      obtain ⟨v, hv, hl⟩ := (leadsTo_metavar_of_ne hkj).1 hl
      exact ht (.through hk hv hl)
    simp only [if_neg hkj, if_pos, if_neg hlead]
    exact hb k hsk
  · rw [if_neg hj] at hs
    have hrank : s.solution? k ≠ none → rank k < rank j := hr j u k hs hk
    by_cases hki : k = i
    · subst hki
      have hlead : s.LeadsTo k (.metavar j) := .through (by simp) hs (.here hopen hk)
      simp only [if_neg hj, if_pos, if_pos hlead]
      omega
    · rw [if_neg hki] at hsk
      have hlt := hrank hsk
      by_cases hlk : s.LeadsTo i (.metavar k)
      · have hlj : s.LeadsTo i (.metavar j) := by
          obtain ⟨v, hv, hl⟩ := (leadsTo_metavar_of_ne hki).1 hlk
          exact .through (by simp) hs (.through hk hv hl)
        simp only [if_neg hki, if_neg hj, if_pos hlk, if_pos hlj]
        omega
      · simp only [if_neg hki, if_neg hj, if_neg hlk]
        have := hb k hsk
        split <;> omega

end ClosedTypes.Solutions
