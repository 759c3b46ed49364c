import ClosedTypes.Proofs.Typing.Unification
/-!
Unification is complete: two types that come to the same under a substitution that agrees with the
solutions are made equal, and the substitution agrees with what was solved for it.
-/

namespace ClosedTypes

variable {σ : UInt32 → Ty} {i : UInt32} {t : Ty}

theorem Ty.sizeOf_lt_of_mentions (h : t.mentionsMetavar i = true) (hne : t ≠ .metavar i) :
    sizeOf (σ i) < sizeOf (t.fill σ) := by
  have part {t : Ty} (h : t.mentionsMetavar i = true)
      (ih : t ≠ .metavar i → sizeOf (σ i) < sizeOf (t.fill σ)) :
      sizeOf (σ i) ≤ sizeOf (t.fill σ) := by
    by_cases heq : t = .metavar i
    · rw [heq]
      exact Nat.le_refl _
    · exact Nat.le_of_lt (ih heq)
  have all {ts : List Ty} (h : ts.any (·.mentionsMetavar i) = true)
      (ih : ∀ t ∈ ts, t.mentionsMetavar i = true → t ≠ .metavar i →
        sizeOf (σ i) < sizeOf (t.fill σ)) :
      sizeOf (σ i) < sizeOf (ts.map (Ty.fill σ)) := by
    obtain ⟨t, ht, hi⟩ := List.any_eq_true.1 h
    exact Nat.lt_of_le_of_lt (part hi (ih t ht hi)) (List.sizeOf_lt_of_mem (List.mem_map_of_mem ht))
  induction t with
  | var x => cases h
  | prim p => cases h
  | metavar j =>
    rw [mentionsMetavar_metavar, decide_eq_true_eq] at h
    exact absurd (congrArg metavar h) hne
  | const c args ih =>
    rw [mentionsMetavar_const] at h
    have := all h ih
    simp only [Ty.fill, bind_const, const.sizeOf_spec] at this ⊢
    omega
  | tuple elems ih =>
    rw [mentionsMetavar_tuple] at h
    have := all h ih
    simp only [Ty.fill, bind_tuple, tuple.sizeOf_spec] at this ⊢
    omega
  | arrow d c ihd ihc =>
    rw [mentionsMetavar_arrow, Bool.or_eq_true] at h
    have hsize : sizeOf ((arrow d c).fill σ) = 1 + sizeOf (d.fill σ) + sizeOf (c.fill σ) :=
      arrow.sizeOf_spec ..
    rcases h with h | h
    · have := part h (ihd h)
      omega
    · have := part h (ihc h)
      omega

namespace Solutions

variable {s : Solutions} {p : Ty → Prop} {a b : Ty} {n m k : Nat}

def Solved (σ : UInt32 → Ty) (r : Bool × Solutions) : Prop := r.1 = true ∧ Satisfies σ r.2

theorem solved_assign (hσ : Satisfies σ s) (hi : i.toNat < s.size) (hopen : s.isSolved t = false)
    (hne : t ≠ .metavar i) (heq : σ i = t.fill σ) : Solved σ (s.assign i t) := by
  have hocc : s.occurs i t = false := by
    refine Bool.eq_false_iff.2 fun hocc => ?_
    have hz : s.zonk t ≠ .metavar i := fun hz => by
      rw [zonk_eq_fill] at hz
      cases t with
      | metavar j =>
        rw [Ty.fill, Ty.bind_metavar, zonk_metavar_of_open (by simpa [isSolved] using hopen)] at hz
        exact hne hz
      | const c args => simp at hz
      | tuple elems => simp at hz
      | _ => cases hz
    have hlt := Ty.sizeOf_lt_of_mentions (σ := σ) hocc hz
    rw [hσ.fill_zonk, ← heq] at hlt
    exact Nat.lt_irrefl _ hlt
  rw [assign_eq, if_pos ⟨hocc, hi⟩]
  refine ⟨rfl, fun j u hu => ?_⟩
  rw [solution?_set hi] at hu
  split at hu
  · rename_i hji
    cases hu
    rw [hji, heq]
  · exact hσ j u hu

noncomputable def smaller (σ : UInt32 → Ty) (n k : Nat) : Nat :=
  ((Finset.range n).filter fun j => sizeOf (σ (.ofNat j)) < k).card

theorem smaller_le :
    smaller σ n k ≤ n := (Finset.card_filter_le _ _).trans (Nat.le_of_eq (Finset.card_range n))

theorem smaller_mono (h : k ≤ m) : smaller σ n k ≤ smaller σ n m := by
  refine Finset.card_le_card fun j hj => ?_
  rw [Finset.mem_filter] at hj ⊢
  exact ⟨hj.1, Nat.lt_of_lt_of_le hj.2 h⟩

theorem smaller_lt (hi : i.toNat < n) (h : k ≤ sizeOf (σ i)) (h' : sizeOf (σ i) < m) :
    smaller σ n k < smaller σ n m := by
  refine Finset.card_lt_card ⟨fun j hj => ?_, fun hsub => ?_⟩
  · rw [Finset.mem_filter] at hj ⊢
    exact ⟨hj.1, by omega⟩
  · have hmem := hsub (Finset.mem_filter.2 ⟨Finset.mem_range.2 hi, by rwa [UInt32.ofNat_toNat]⟩)
    rw [Finset.mem_filter, UInt32.ofNat_toNat] at hmem
    omega

section

variable {bound : Nat} {deeper : Ty → Ty → Solutions → Bool × Solutions}

structure Unifiable (p : Ty → Prop) (bound : Nat) (σ : UInt32 → Ty) (a b : Ty) (s : Solutions) :
    Prop where
  acyclic : s.Acyclic
  all : s.All p
  size : s.size = bound
  satisfies : Satisfies σ s
  left : p a
  right : p b
  equal : a.fill σ = b.fill σ

theorem Unifiable.resolve (h : Unifiable p bound σ a b s) :
    Unifiable p bound σ (s.resolve a) (s.resolve b) s :=
  { h with
    left := h.all.resolve h.left
    right := h.all.resolve h.right
    equal := by rw [h.satisfies.fill_resolve, h.satisfies.fill_resolve, h.equal] }

/-- `n` layers of fuel are enough for what the two types lead to, behind the one that they are in
if that is open. -/
def Fuelled (σ : UInt32 → Ty) (bound n : Nat) (a b : Ty) (s : Solutions) : Prop :=
  ((s.isSolved a || s.isSolved b) = false ∧ smaller σ bound (sizeOf (a.fill σ)) ≤ n) ∨
    smaller σ bound (sizeOf (a.fill σ) + 1) ≤ n

theorem Fuelled.behind (h : Fuelled σ bound n a b s)
    (hsolved : (s.isSolved a || s.isSolved b) = true) :
    smaller σ bound (sizeOf (a.fill σ) + 1) ≤ n := by
  rcases h with ⟨hopen, -⟩ | h
  · rw [hsolved] at hopen
    cases hopen
  · exact h

theorem Fuelled.below (h : Fuelled σ bound n a b s) (hk : k ≤ sizeOf (a.fill σ)) :
    smaller σ bound k ≤ n := by
  rcases h with ⟨-, h⟩ | h
  · exact (smaller_mono hk).trans h
  · exact (smaller_mono (Nat.le_succ_of_le hk)).trans h

theorem Solved.andThen {r : Bool × Solutions} {next : Solutions → Bool × Solutions} :
    Solved σ r → (Satisfies σ r.2 → Solved σ (next r.2)) →
      Solved σ (match r with | (true, s) => next s | (false, s) => (false, s)) := by
  intro h hnext
  obtain ⟨_ | _, s⟩ := r
  · cases h.1
  · exact hnext h.2

theorem solved_unifyAllWith {as bs : List Ty} (hs : s.Acyclic) (hall : s.All p)
    (hsize : s.size = bound) (hσ : Satisfies σ s)
    (hpa : ∀ t ∈ as, p t) (hpb : ∀ t ∈ bs, p t) (heq : as.map (Ty.fill σ) = bs.map (Ty.fill σ))
    (hfuel : ∀ t ∈ as, smaller σ bound (sizeOf (t.fill σ) + 1) ≤ n)
    (hunify : ∀ a ∈ as, ∀ b s, s.Acyclic → s.All p → p a → p b →
      Unified p s a b (unifyWith deeper a b s))
    (ih : ∀ a ∈ as, ∀ b s, Unifiable p bound σ a b s → Fuelled σ bound n a b s →
      Solved σ (unifyWith deeper a b s)) :
    Solved σ (unifyAllWith deeper as bs s) := by
  induction as generalizing bs s with
  | nil =>
    cases bs with
    | nil => exact ⟨rfl, hσ⟩
    | cons b bs => cases heq
  | cons a as iht =>
    cases bs with
    | nil => cases heq
    | cons b bs =>
      rw [List.map_cons, List.map_cons, List.cons.injEq] at heq
      obtain ⟨ha, hpa⟩ := List.forall_mem_cons.1 hpa
      obtain ⟨hb, hpb⟩ := List.forall_mem_cons.1 hpb
      obtain ⟨hfa, hfuel⟩ := List.forall_mem_cons.1 hfuel
      obtain ⟨iha, ih⟩ := List.forall_mem_cons.1 ih
      obtain ⟨hua, hunify⟩ := List.forall_mem_cons.1 hunify
      have hunified := hua b s hs hall ha hb
      rw [unifyAllWith]
      refine .andThen (iha b s ⟨hs, hall, hsize, hσ, ha, hb, heq.1⟩ (.inr hfa)) fun hσ' => ?_
      exact iht hunified.acyclic hunified.all (hunified.ext.size.trans hsize) hσ' hpa
        hpb heq.2 hfuel hunify ih

variable (hp : Hereditary p) (hbound : ∀ t i, p t → t.mentionsMetavar i = true → i.toNat < bound)
  (hunified : ∀ a b s, s.Acyclic → s.All p → p a → p b → Unified p s a b (deeper a b s))
  (hdeeper : ∀ a b s, Unifiable p bound σ a b s → s.isSolved a = false → s.isSolved b = false →
    smaller σ bound (sizeOf (a.fill σ)) < n → Solved σ (deeper a b s))

include hbound hdeeper

theorem solved_deeper (h : Unifiable p bound σ a b s)
    (hsolved : (s.isSolved a || s.isSolved b) = true)
    (hfuel : smaller σ bound (sizeOf (a.fill σ) + 1) ≤ n) :
    Solved σ (deeper (s.resolve a) (s.resolve b) s) := by
  refine hdeeper _ _ s h.resolve (h.acyclic.isSolved_resolve a) (h.acyclic.isSolved_resolve b) ?_
  rw [h.satisfies.fill_resolve]
  have lower {t : Ty} (ht : s.isSolved t = true) (hpt : p t) (heq : t.fill σ = a.fill σ) :
      smaller σ bound (sizeOf (a.fill σ)) < smaller σ bound (sizeOf (a.fill σ) + 1) := by
    cases t with
    | metavar i =>
      have hsize : sizeOf (σ i) = sizeOf (a.fill σ) := congrArg sizeOf heq
      exact smaller_lt (hbound _ i hpt (by simp)) (Nat.le_of_eq hsize.symm) (by omega)
    | _ => cases ht
  rcases Bool.or_eq_true _ _ |>.mp hsolved with ha | hb
  · exact Nat.lt_of_lt_of_le (lower ha h.left rfl) hfuel
  · exact Nat.lt_of_lt_of_le (lower hb h.right h.equal.symm) hfuel

theorem solved_of_parts (h : Unifiable p bound σ a b s) (hfuel : Fuelled σ bound n a b s)
    (hparts : (s.isSolved a || s.isSolved b) = false → (∀ i, a ≠ .metavar i) →
      (∀ j, b ≠ .metavar j) →
      Solved σ (unifyWith deeper a b s)) : Solved σ (unifyWith deeper a b s) := by
  cases hsolved : s.isSolved a || s.isSolved b with
  | true =>
    rw [unifyWith.eq_def, if_pos hsolved]
    exact solved_deeper hbound hdeeper h hsolved (hfuel.behind hsolved)
  | false =>
    obtain ⟨ha, hb⟩ := Bool.or_eq_false_iff.1 hsolved
    by_cases hi : ∃ i, a = .metavar i
    · obtain ⟨i, rfl⟩ := hi
      have hlt : i.toNat < s.size := h.size ▸ hbound _ i h.left (by simp)
      have solve (hne : b ≠ .metavar i) : Solved σ (s.assign i b) :=
        solved_assign h.satisfies hlt hb hne h.equal
      rw [unifyWith.eq_def, hsolved]
      cases b with
      | metavar j =>
        by_cases hij : i = j
        · simp only [Bool.false_eq_true, if_false, if_pos hij]
          exact ⟨rfl, h.satisfies⟩
        · simpa only [Bool.false_eq_true, if_false, if_neg hij] using solve fun e =>
            hij (Ty.metavar.inj e).symm
      | _ => exact solve (by simp)
    · by_cases hj : ∃ j, b = .metavar j
      · obtain ⟨j, rfl⟩ := hj
        have hlt : j.toNat < s.size := h.size ▸ hbound _ j h.right (by simp)
        have hassign : unifyWith deeper a (.metavar j) s = s.assign j a := by
          rw [unifyWith.eq_def, hsolved]
          cases a with
          | metavar i => exact absurd ⟨i, rfl⟩ hi
          | _ => rfl
        rw [hassign]
        exact solved_assign h.satisfies hlt ha (fun e => hi ⟨j, e⟩) h.equal.symm
      · exact hparts hsolved (fun i e => hi ⟨i, e⟩) fun j e => hj ⟨j, e⟩

include hp hunified

theorem solved_unifyWith (h : Unifiable p bound σ a b s) (hfuel : Fuelled σ bound n a b s) :
    Solved σ (unifyWith deeper a b s) := by
  induction a generalizing b s with
  | metavar i => exact solved_of_parts hbound hdeeper h hfuel fun _ ha _ => absurd rfl (ha i)
  | var x =>
    refine solved_of_parts hbound hdeeper h hfuel fun hopen _ hb => ?_
    rw [unifyWith.eq_def, hopen]
    have heq := h.equal
    cases b with
    | metavar j => exact absurd rfl (hb j)
    | var y => exact ⟨by simpa using heq, h.satisfies⟩
    | _ => simp at heq
  | prim q =>
    refine solved_of_parts hbound hdeeper h hfuel fun hopen _ hb => ?_
    rw [unifyWith.eq_def, hopen]
    have heq := h.equal
    cases b with
    | metavar j => exact absurd rfl (hb j)
    | prim r => exact ⟨by simpa using heq, h.satisfies⟩
    | _ => simp at heq
  | const c as ih =>
    refine solved_of_parts hbound hdeeper h hfuel fun hopen _ hb => ?_
    rw [unifyWith.eq_def, hopen]
    have heq := h.equal
    cases b with
    | metavar j => exact absurd rfl (hb j)
    | const d bs =>
      simp only [Ty.fill, Ty.bind_const, Ty.const.injEq] at heq
      have hlen : as.length = bs.length := by simpa using congrArg List.length heq.2
      simp only [Bool.false_eq_true, if_false, if_pos (And.intro heq.1 hlen)]
      refine solved_unifyAllWith h.acyclic h.all h.size h.satisfies (hp.const h.left)
        (hp.const h.right) heq.2
        (fun t ht => hfuel.below ?_) (fun a _ b s => unified_unifyWith hp hunified) fun a ha b s =>
          ih a ha
      have := List.sizeOf_lt_of_mem (List.mem_map_of_mem (f := Ty.fill σ) ht)
      simp only [Ty.fill, Ty.bind_const, Ty.const.sizeOf_spec] at this ⊢
      omega
    | _ => simp at heq
  | arrow d c ihd ihc =>
    refine solved_of_parts hbound hdeeper h hfuel fun hopen _ hb => ?_
    rw [unifyWith.eq_def, hopen]
    have heq := h.equal
    cases b with
    | metavar j => exact absurd rfl (hb j)
    | arrow d' c' =>
      simp only [Ty.fill, Ty.bind_arrow, Ty.arrow.injEq] at heq
      have hsize : sizeOf ((Ty.arrow d c).fill σ) = 1 + sizeOf (d.fill σ) + sizeOf (c.fill σ) :=
        Ty.arrow.sizeOf_spec ..
      have hd :=
        unified_unifyWith hp hunified h.acyclic h.all (hp.arrow h.left).1 (hp.arrow h.right).1
      have hdom : Unifiable p bound σ d d' s :=
        ⟨h.acyclic, h.all, h.size, h.satisfies, (hp.arrow h.left).1, (hp.arrow h.right).1, heq.1⟩
      refine .andThen (ihd hdom (.inr (hfuel.below (by omega)))) fun hσ => ?_
      have hcod : Unifiable p bound σ c c' (unifyWith deeper d d' s).2 :=
        ⟨hd.acyclic, hd.all, hd.ext.size.trans h.size, hσ, (hp.arrow h.left).2,
          (hp.arrow h.right).2, heq.2⟩
      exact ihc hcod (.inr (hfuel.below (by omega)))
    | _ => simp at heq
  | tuple as ih =>
    refine solved_of_parts hbound hdeeper h hfuel fun hopen _ hb => ?_
    rw [unifyWith.eq_def, hopen]
    have heq := h.equal
    cases b with
    | metavar j => exact absurd rfl (hb j)
    | tuple bs =>
      simp only [Ty.fill, Ty.bind_tuple, Ty.tuple.injEq] at heq
      have hlen : as.length = bs.length := by simpa using congrArg List.length heq
      simp only [Bool.false_eq_true, if_false, if_pos hlen]
      refine solved_unifyAllWith h.acyclic h.all h.size h.satisfies (hp.tuple h.left)
        (hp.tuple h.right) heq
        (fun t ht => hfuel.below ?_) (fun a _ b s => unified_unifyWith hp hunified) fun a ha b s =>
          ih a ha
      have := List.sizeOf_lt_of_mem (List.mem_map_of_mem (f := Ty.fill σ) ht)
      simp only [Ty.fill, Ty.bind_tuple, Ty.tuple.sizeOf_spec] at this ⊢
      omega
    | _ => simp at heq

end

/-- If there is a way to make two types equal that agrees with the solutions, unification goes
this way. -/
theorem solved_unify (hp : Hereditary p)
    (hbound : ∀ t i, p t → t.mentionsMetavar i = true → i.toNat < s.size) (hs : s.Acyclic)
    (hall : s.All p) (hσ : Satisfies σ s) (ha : p a) (hb : p b) (heq : a.fill σ = b.fill σ) :
    Solved σ (s.unify a b) := by
  have within (n : Nat) (a b : Ty) (s' : Solutions) (h : Unifiable p s.size σ a b s')
      (ha : s'.isSolved a = false)
      (hb : s'.isSolved b = false) (hfuel : smaller σ s.size (sizeOf (a.fill σ)) < n) :
          Solved σ (unifyWithin n a b s') := by
    induction n generalizing a b s' with
    | zero => cases hfuel
    | succ n ih =>
      have hopen : (s'.isSolved a || s'.isSolved b) = false := by rw [ha, hb]; rfl
      exact solved_unifyWith hp hbound (fun _ _ _ => unified_unifyWithin hp n) ih h
        (.inl ⟨hopen, Nat.le_of_lt_succ hfuel⟩)
  have hfuel : smaller σ s.size (sizeOf (a.fill σ) + 1) ≤ 2 * s.size := smaller_le.trans (by omega)
  exact solved_unifyWith hp hbound (fun _ _ _ => unified_unifyWithin hp _) (within _)
    ⟨hs, hall, rfl, hσ, ha, hb, heq⟩ (.inr hfuel)

end Solutions

end ClosedTypes
