import ClosedTypes.Proofs.Typing.Solutions
/-!
Unification. Whether or not it succeeds it only adds solutions; when it succeeds, its two types come
to the same under every substitution that agrees with the solutions.
-/

namespace ClosedTypes.Solutions

variable {s s' s'' : Solutions} {p : Ty → Prop} {a b t : Ty} {i : UInt32} {σ : UInt32 → Ty}

structure Extends (s s' : Solutions) : Prop where
  size : s'.size = s.size
  kept : ∀ i t, s.solution? i = some t → s'.solution? i = some t

theorem Extends.refl (s : Solutions) : s.Extends s := ⟨rfl, fun _ _ h => h⟩

theorem Extends.trans (h : s.Extends s') (h' : s'.Extends s'') : s.Extends s'' :=
  ⟨h'.size.trans h.size, fun i t hs => h'.kept i t (h.kept i t hs)⟩

theorem extends_set (hopen : s.solution? i = none) (hi : i.toNat < s.size) :
    s.Extends (s.set i t) := by
  refine ⟨size_set s i t, fun j u hs => ?_⟩
  have hj : j ≠ i := fun e => by
    rw [e, hopen] at hs
    cases hs
  rw [solution?_set hi, if_neg hj, hs]

def All (s : Solutions) (p : Ty → Prop) : Prop := ∀ i t, s.solution? i = some t → p t

theorem All.set (h : s.All p) (hi : i.toNat < s.size) (ht : p t) : (s.set i t).All p := by
  intro j u hs
  rw [solution?_set hi] at hs
  split at hs
  · cases hs
    exact ht
  · exact h j u hs

theorem All.resolveWithin (h : s.All p) (n : Nat) (ht : p t) : p (s.resolveWithin n t) := by
  induction n generalizing t with
  | zero => exact ht
  | succ n ih =>
    cases t with
    | metavar i =>
      rw [Solutions.resolveWithin]
      cases hs : s.solution? i with
      | none => exact ht
      | some u => exact ih (h i u hs)
    | _ => exact ht

theorem All.resolve (h : s.All p) (ht : p t) : p (s.resolve t) := h.resolveWithin s.size ht

structure Hereditary (p : Ty → Prop) : Prop where
  const : ∀ {c args}, p (.const c args) → ∀ t ∈ args, p t
  arrow : ∀ {d c}, p (.arrow d c) → p d ∧ p c
  tuple : ∀ {elems}, p (.tuple elems) → ∀ t ∈ elems, p t

/-- What may become of the solutions `s` when `a` and `b` are to be made equal. -/
structure Unified (p : Ty → Prop) (s : Solutions) (a b : Ty) (r : Bool × Solutions) : Prop where
  acyclic : r.2.Acyclic
  all : r.2.All p
  ext : s.Extends r.2
  equal : r.1 = true → ∀ σ, Satisfies σ r.2 → a.fill σ = b.fill σ

theorem Satisfies.of_extends (h : Satisfies σ s') (hs : s.Extends s') : Satisfies σ s :=
  fun i t ht => h i t (hs.kept i t ht)

theorem Unified.unchanged (hs : s.Acyclic) (ha : s.All p) {r : Bool} (h : r = true → a = b) :
    Unified p s a b (r, s) :=
  ⟨hs, ha, .refl s, fun hr _ _ => by rw [h hr]⟩

theorem Unified.symm {r : Bool × Solutions} (h : Unified p s a b r) : Unified p s b a r :=
  ⟨h.acyclic, h.all, h.ext, fun hr σ hσ => (h.equal hr σ hσ).symm⟩

theorem unified_assign (hs : s.Acyclic) (ha : s.All p) (hopen : s.solution? i = none) (ht : p t) :
    Unified p s (.metavar i) t (s.assign i t) := by
  rw [assign_eq]
  by_cases h : s.occurs i t = false ∧ i.toNat < s.size
  · rw [if_pos h]
    have hlead : ¬s.LeadsTo i t := fun hl => by
      rw [hs.occurs_iff.2 hl] at h
      cases h.1
    refine ⟨hs.set hopen h.2 hlead, ha.set h.2 ht, extends_set hopen h.2, fun _ σ hσ => ?_⟩
    exact hσ i t (by rw [solution?_set h.2, if_pos rfl])
  · rw [if_neg h]
    exact .unchanged hs ha nofun

theorem Unified.andThen {c d e f : Ty} {r : Bool × Solutions} {next : Solutions → Bool × Solutions}
    (hef : ∀ σ, a.fill σ = b.fill σ → c.fill σ = d.fill σ → e.fill σ = f.fill σ) :
    Unified p s a b r → Unified p r.2 c d (next r.2) →
      Unified p s e f (match r with | (true, s) => next s | (false, s) => (false, s)) := by
  intro h hnext
  obtain ⟨_ | _, s₁⟩ := r
  · exact ⟨h.acyclic, h.all, h.ext, nofun⟩
  · exact ⟨hnext.acyclic, hnext.all, h.ext.trans hnext.ext, fun hr σ hσ =>
      hef σ (h.equal rfl σ (hσ.of_extends hnext.ext)) (hnext.equal hr σ hσ)⟩

theorem unified_unifyAllWith {deeper : Ty → Ty → Solutions → Bool × Solutions} {as bs : List Ty}
    (hlen : as.length = bs.length)
    (hpa : ∀ t ∈ as, p t) (hpb : ∀ t ∈ bs, p t) (hs : s.Acyclic) (ha : s.All p)
    (ih : ∀ a ∈ as, ∀ b s, s.Acyclic → s.All p → p a → p b →
      Unified p s a b (unifyWith deeper a b s)) :
    Unified p s (.tuple as) (.tuple bs) (unifyAllWith deeper as bs s) := by
  induction as generalizing bs s with
  | nil =>
    cases List.length_eq_zero_iff.1 hlen.symm
    exact .unchanged hs ha fun _ => rfl
  | cons a as iht =>
    cases bs with
    | nil => cases hlen
    | cons b bs =>
      obtain ⟨ha', hpa⟩ := List.forall_mem_cons.1 hpa
      obtain ⟨hb', hpb⟩ := List.forall_mem_cons.1 hpb
      obtain ⟨iha, ih⟩ := List.forall_mem_cons.1 ih
      have head := iha b s hs ha ha' hb'
      have tail := iht (Nat.succ.inj hlen) hpa hpb head.acyclic head.all ih
      rw [unifyAllWith]
      exact .andThen (fun σ hhead htail => by simpa [hhead] using htail) head tail

theorem isSolved_metavar_eq_false_iff :
    s.isSolved (.metavar i) = false ↔ s.solution? i = none := by simp [isSolved]

section

variable (hp : Hereditary p) {deeper : Ty → Ty → Solutions → Bool × Solutions}
  (hdeeper : ∀ a b s, s.Acyclic → s.All p → p a → p b → Unified p s a b (deeper a b s))

include hdeeper in
theorem unified_deeper (hs : s.Acyclic) (ha : s.All p) (hpa : p a) (hpb : p b) :
    Unified p s a b (deeper (s.resolve a) (s.resolve b) s) := by
  have h := hdeeper _ _ s hs ha (ha.resolve hpa) (ha.resolve hpb)
  refine ⟨h.acyclic, h.all, h.ext, fun hr σ hσ => ?_⟩
  have hσs : Satisfies σ s := hσ.of_extends h.ext
  rw [← hσs.fill_resolve a, ← hσs.fill_resolve b]
  exact h.equal hr σ hσ

include hdeeper in
theorem unified_of_parts (hs : s.Acyclic) (ha : s.All p) (hpa : p a) (hpb : p b)
    (hne : ∀ i, a ≠ .metavar i)
    (hparts : (s.isSolved a || s.isSolved b) = false → (∀ j, b ≠ .metavar j) →
      Unified p s a b (unifyWith deeper a b s)) :
    Unified p s a b (unifyWith deeper a b s) := by
  cases hsolved : s.isSolved a || s.isSolved b with
  | true =>
    rw [unifyWith.eq_def, if_pos hsolved]
    exact unified_deeper hdeeper hs ha hpa hpb
  | false =>
    cases b with
    | metavar j =>
      have hassign : unifyWith deeper a (.metavar j) s = s.assign j a := by
        rw [unifyWith.eq_def, hsolved]
        cases a with
        | metavar i => exact absurd rfl (hne i)
        | _ => rfl
      have hopen := isSolved_metavar_eq_false_iff.1 (Bool.or_eq_false_iff.1 hsolved).2
      rw [hassign]
      exact (unified_assign hs ha hopen hpa).symm
    | _ => exact hparts hsolved nofun

include hp hdeeper in
theorem unified_unifyWith (hs : s.Acyclic) (ha : s.All p) (hpa : p a) (hpb : p b) :
    Unified p s a b (unifyWith deeper a b s) := by
  -- the two types are taken apart together, so the induction on one of them has to hold for every
  -- other and every state
  induction a generalizing b s with
  | metavar i =>
    unfold unifyWith
    split
    · exact unified_deeper hdeeper hs ha hpa hpb
    · rename_i h
      simp only [Bool.or_eq_true, not_or, Bool.not_eq_true, isSolved_metavar_eq_false_iff] at h
      have solve : Unified p s (.metavar i) b (s.assign i b) := unified_assign hs ha h.1 hpb
      cases b with
      | metavar j =>
        by_cases hij : i = j
        · simp only [if_pos hij]
          exact .unchanged hs ha fun _ => congrArg Ty.metavar hij
        · simpa only [if_neg hij] using solve
      | _ => exact solve
  | var x =>
    refine unified_of_parts hdeeper hs ha hpa hpb nofun fun hopen hb => ?_
    rw [unifyWith.eq_def, hopen]
    cases b with
    | metavar j => exact absurd rfl (hb j)
    | var y => exact .unchanged hs ha (by simp)
    | _ => exact .unchanged hs ha nofun
  | prim q =>
    refine unified_of_parts hdeeper hs ha hpa hpb nofun fun hopen hb => ?_
    rw [unifyWith.eq_def, hopen]
    cases b with
    | metavar j => exact absurd rfl (hb j)
    | prim r => exact .unchanged hs ha (by simp)
    | _ => exact .unchanged hs ha nofun
  | const c as ih =>
    refine unified_of_parts hdeeper hs ha hpa hpb nofun fun hopen hb => ?_
    rw [unifyWith.eq_def, hopen]
    cases b with
    | metavar j => exact absurd rfl (hb j)
    | const d bs =>
      show Unified p s _ _ (if c = d ∧ as.length = bs.length then _ else _)
      by_cases hcd : c = d ∧ as.length = bs.length
      · rw [if_pos hcd]
        have all := unified_unifyAllWith hcd.2 (hp.const hpa) (hp.const hpb) hs ha
          fun a h b s hs ha hpa hpb => ih a h hs ha hpa hpb
        exact ⟨all.acyclic, all.all, all.ext, fun hr σ hσ => by
          simpa [hcd.1] using all.equal hr σ hσ⟩
      · rw [if_neg hcd]
        exact .unchanged hs ha nofun
    | _ => exact .unchanged hs ha nofun
  | arrow d c ihd ihc =>
    refine unified_of_parts hdeeper hs ha hpa hpb nofun fun hopen hb => ?_
    rw [unifyWith.eq_def, hopen]
    cases b with
    | metavar j => exact absurd rfl (hb j)
    | arrow d' c' =>
      have dom := ihd hs ha (hp.arrow hpa).1 (hp.arrow hpb).1
      have cod := ihc dom.acyclic dom.all (hp.arrow hpa).2 (hp.arrow hpb).2
      exact .andThen (fun σ hdom hcod => by simp [hdom, hcod]) dom cod
    | _ => exact .unchanged hs ha nofun
  | tuple as ih =>
    refine unified_of_parts hdeeper hs ha hpa hpb nofun fun hopen hb => ?_
    rw [unifyWith.eq_def, hopen]
    cases b with
    | metavar j => exact absurd rfl (hb j)
    | tuple bs =>
      show Unified p s _ _ (if as.length = bs.length then _ else _)
      by_cases hlen : as.length = bs.length
      · rw [if_pos hlen]
        exact unified_unifyAllWith hlen (hp.tuple hpa) (hp.tuple hpb) hs ha
          fun a h b s hs ha hpa hpb => ih a h hs ha hpa hpb
      · rw [if_neg hlen]
        exact .unchanged hs ha nofun
    | _ => exact .unchanged hs ha nofun

end

theorem unified_unifyWithin (hp : Hereditary p) (n : Nat) (hs : s.Acyclic) (ha : s.All p)
    (hpa : p a) (hpb : p b) :
    Unified p s a b (unifyWithin n a b s) := by
  induction n generalizing a b s with
  | zero => exact .unchanged hs ha nofun
  | succ n ih => exact unified_unifyWith hp (fun _ _ _ => ih) hs ha hpa hpb

theorem unified_unify (hp : Hereditary p) (hs : s.Acyclic) (ha : s.All p) (hpa : p a) (hpb : p b) :
    Unified p s a b (s.unify a b) := unified_unifyWithin hp _ hs ha hpa hpb

section

variable {deeper : Ty → Ty → Solutions → Bool × Solutions}

theorem extends_assign (hopen : s.solution? i = none) : s.Extends (s.assign i t).2 := by
  rw [assign_eq]
  split
  · rename_i h
    exact extends_set hopen h.2
  · exact .refl s

theorem Extends.andThen {r : Bool × Solutions} {next : Solutions → Bool × Solutions} :
    s.Extends r.2 → r.2.Extends (next r.2).2 →
    s.Extends (match r with | (true, s) => next s | (false, s) => (false, s)).2 := by
  intro h hnext
  obtain ⟨_ | _, s⟩ := r
  · exact h
  · exact h.trans hnext

theorem extends_unifyAllWith {as bs : List Ty}
    (ih : ∀ a ∈ as, ∀ b s, Extends s (unifyWith deeper a b s).2) :
    s.Extends (unifyAllWith deeper as bs s).2 := by
  induction as generalizing bs s with
  | nil =>
    rw [unifyAllWith.eq_def]
    exact .refl s
  | cons a as iht =>
    obtain ⟨iha, ih⟩ := List.forall_mem_cons.1 ih
    cases bs with
    | nil =>
      rw [unifyAllWith.eq_def]
      exact .refl s
    | cons b bs =>
      rw [unifyAllWith]
      exact .andThen (iha b s) (iht ih)

theorem extends_unifyWith (hdeeper : ∀ a b s, Extends s (deeper a b s).2) :
    s.Extends (unifyWith deeper a b s).2 := by
  have solved {a b : Ty} {s : Solutions} (hparts : (s.isSolved a || s.isSolved b) = false →
        s.Extends (unifyWith deeper a b s).2) :
      s.Extends (unifyWith deeper a b s).2 := by
    cases hsolved : s.isSolved a || s.isSolved b with
    | true =>
      rw [unifyWith.eq_def, if_pos hsolved]
      exact hdeeper _ _ s
    | false => exact hparts hsolved
  have parts {a b : Ty} {s : Solutions} (hne : ∀ i, a ≠ .metavar i)
      (hparts : (s.isSolved a || s.isSolved b) = false → (∀ j, b ≠ .metavar j) →
        s.Extends (unifyWith deeper a b s).2) :
      s.Extends (unifyWith deeper a b s).2 := by
    refine solved fun h => ?_
    by_cases hb : ∃ j, b = .metavar j
    · obtain ⟨j, rfl⟩ := hb
      obtain ⟨-, hj⟩ := Bool.or_eq_false_iff.1 h
      have hassign : unifyWith deeper a (.metavar j) s = s.assign j a := by
        rw [unifyWith.eq_def, h]
        cases a with
        | metavar i => exact absurd rfl (hne i)
        | _ => rfl
      rw [hassign]
      exact extends_assign (isSolved_metavar_eq_false_iff.1 hj)
    · exact hparts h fun j e => hb ⟨j, e⟩
  induction a generalizing b s with
  | metavar i =>
    refine solved fun h => ?_
    obtain ⟨hi, -⟩ := Bool.or_eq_false_iff.1 h
    rw [isSolved_metavar_eq_false_iff] at hi
    rw [unifyWith.eq_def, h]
    cases b with
    | metavar j =>
      simp only [Bool.false_eq_true, if_false]
      split
      · exact .refl s
      · exact extends_assign hi
    | _ => exact extends_assign hi
  | const c as ih =>
    refine parts nofun fun h hb => ?_
    rw [unifyWith.eq_def, h]
    cases b with
    | metavar j => exact absurd rfl (hb j)
    | const d bs =>
      simp only [Bool.false_eq_true, if_false]
      split
      · exact extends_unifyAllWith fun a ha b s => ih a ha
      · exact .refl s
    | _ => exact .refl s
  | tuple as ih =>
    refine parts nofun fun h hb => ?_
    rw [unifyWith.eq_def, h]
    cases b with
    | metavar j => exact absurd rfl (hb j)
    | tuple bs =>
      simp only [Bool.false_eq_true, if_false]
      split
      · exact extends_unifyAllWith fun a ha b s => ih a ha
      · exact .refl s
    | _ => exact .refl s
  | arrow d c ihd ihc =>
    refine parts nofun fun h hb => ?_
    rw [unifyWith.eq_def, h]
    cases b with
    | metavar j => exact absurd rfl (hb j)
    | arrow d' c' => exact .andThen ihd ihc
    | _ => exact .refl s
  | _ =>
    refine parts nofun fun h hb => ?_
    rw [unifyWith.eq_def, h]
    cases b with
    | metavar j => exact absurd rfl (hb j)
    | _ => exact .refl s

theorem extends_unify (s : Solutions) (a b : Ty) : s.Extends (s.unify a b).2 := by
  have within (n : Nat) (a b : Ty) (s : Solutions) : s.Extends (unifyWithin n a b s).2 := by
    induction n generalizing a b s with
    | zero => exact .refl s
    | succ n ih => exact extends_unifyWith ih
  exact within _ a b s

end

@[simp] theorem size_fresh (s : Solutions) : s.fresh.2.size = s.size + 1 := by simp [fresh, size]

@[simp] theorem solution?_fresh (s : Solutions) (i : UInt32) :
    s.fresh.2.solution? i = s.solution? i := by
  unfold solution? fresh
  rw [Array.getElem?_push]
  split
  · rename_i h
    rw [h, Array.getElem?_eq_none (Nat.le_refl _)]
    rfl
  · rfl

theorem solution?_of_size_le (h : s.size ≤ i.toNat) : s.solution? i = none := by
  unfold solution?
  rw [Array.getElem?_eq_none h]
  rfl

theorem Acyclic.fresh (h : s.Acyclic) : s.fresh.2.Acyclic := by
  obtain ⟨rank, hr⟩ := h
  exact ⟨rank, fun i t j => by simpa using hr i t j⟩

theorem All.fresh (h : s.All p) : s.fresh.2.All p := fun i t => by simpa using h i t

theorem unify_metavar_arrow {d c : UInt32} (hopen : s.solution? i = none) (hi : i.toNat < s.size)
    (hd : s.solution? d = none) (hc : s.solution? c = none) (hdi : d ≠ i) (hci : c ≠ i) :
    (s.unify (.metavar i) (.arrow (.metavar d) (.metavar c))).1 = true := by
  have hocc : s.occurs i (.arrow (.metavar d) (.metavar c)) = false := by
    unfold occurs
    rw [zonk_eq_fill]
    simp [zonk_metavar_of_open hd, zonk_metavar_of_open hc, hdi, hci]
  have hsolved : (s.isSolved (.metavar i) || s.isSolved (.arrow (.metavar d) (.metavar c))) =
      false := by
    simp [isSolved, hopen]
  unfold unify unifyWithin unifyWith
  simp only [hsolved, Bool.false_eq_true, if_false]
  rw [assign_eq, if_pos ⟨hocc, hi⟩]

end ClosedTypes.Solutions
