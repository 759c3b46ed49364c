import ClosedTypes.Proofs.Term.Free
import ClosedTypes.Term.Alpha
import ClosedTypes.Term.Nameless
import Mathlib.Data.Option.Basic
/-!
Nameless forms: what of a list of binders they depend on, which names are left free in them, and
that the comparison up to bound names compares them.
-/

namespace ClosedTypes

theorem idxOf?_cons (xs : List Name) (x y : Name) :
    (x :: xs).idxOf? y = if x = y then some 0 else (xs.idxOf? y).map (· + 1) := by
  simp [List.idxOf?_cons]

theorem idxOf?_cons_congr {xs ys : List Name} {x y : Name} (h : y ≠ x → xs.idxOf? y = ys.idxOf? y) :
    (x :: xs).idxOf? y = (x :: ys).idxOf? y := by
  rw [idxOf?_cons, idxOf?_cons]
  split
  · rfl
  · rename_i hne
    rw [h (Ne.symm hne)]

namespace Nameless

@[induction_eliminator]
theorem induct {P : Nameless → Prop} (bound : ∀ i, P (.bound i)) (free : ∀ x, P (.free x))
    (app : ∀ f a, P f → P a → P (.app f a)) (lam : ∀ dom b, P b → P (.lam dom b))
    (ann : ∀ t ty, P t → P (.ann t ty)) (ctor : ∀ c args, (∀ t ∈ args, P t) → P (.ctor c args))
    (elim : ∀ e s args, P s → (∀ t ∈ args, P t) → P (.elim e s args)) (lit : ∀ l, P (.lit l))
    (prim : ∀ op args, (∀ t ∈ args, P t) → P (.prim op args))
    (tuple : ∀ elems, (∀ t ∈ elems, P t) → P (.tuple elems))
    (proj : ∀ t i, P t → P (.proj t i)) (t : Nameless) : P t :=
  Nameless.rec (motive_1 := P) (motive_2 := fun ts => ∀ t ∈ ts, P t) bound free app lam
    ann ctor elim lit prim tuple proj nofun
    (fun _ _ h hs => List.forall_mem_cons.2 ⟨h, hs⟩) t

mutual

def names : Nameless → List Name
  | bound _ => []
  | free x => [x]
  | app f a => names f ++ names a
  | lam _ b => names b
  | ann t _ => names t
  | ctor _ args => namesAll args
  | elim _ s args => names s ++ namesAll args
  | lit _ => []
  | prim _ args => namesAll args
  | tuple elems => namesAll elems
  | proj t _ => names t

def namesAll : List Nameless → List Name
  | [] => []
  | t :: ts => names t ++ namesAll ts

end

theorem mem_namesAll {ts : List Nameless} {x : Name} : x ∈ namesAll ts ↔ ∃ t ∈ ts, x ∈ t.names := by
  induction ts with
  | nil => simp [namesAll]
  | cons t ts ih => simp [namesAll, ih]

variable {t : Nameless} {σ τ : Name → Option Nameless} {x : Name}

theorem subst_congr (h : ∀ x ∈ t.names, σ x = τ x) : t.subst σ = t.subst τ := by
  have each {ts : List Nameless} (ih : ∀ t ∈ ts, (∀ x ∈ t.names, σ x = τ x) → t.subst σ = t.subst τ)
      (h : ∀ x ∈ namesAll ts, σ x = τ x) : substAll σ ts = substAll τ ts := by
    rw [substAll_eq_map, substAll_eq_map]
    exact List.map_congr_left fun t ht => ih t ht fun x hx => h x (mem_namesAll.2 ⟨t, ht, hx⟩)
  induction t with
  | bound i => rfl
  | lit l => rfl
  | free x => rw [subst, subst, h x List.mem_cons_self]
  | app f a ihf iha =>
    rw [subst, subst, ihf fun x hx => h x (List.mem_append_left _ hx), iha fun x hx =>
      h x (List.mem_append_right _ hx)]
  | lam dom b ih => rw [subst, subst, ih h]
  | ann t ty ih => rw [subst, subst, ih h]
  | ctor c args ih => rw [subst, subst, each ih h]
  | elim e s args ihs ih =>
    rw [subst, subst, ihs fun x hx => h x (List.mem_append_left _ hx), each ih fun x hx =>
      h x (List.mem_append_right _ hx)]
  | prim op args ih => rw [subst, subst, each ih h]
  | tuple elems ih => rw [subst, subst, each ih h]
  | proj t i ih => rw [subst, subst, ih h]

theorem subst_none : t.subst (fun _ => none) = t := by
  have each {ts : List Nameless} (ih : ∀ t ∈ ts, t.subst (fun _ => none) = t) :
      substAll (fun _ => none) ts = ts := by
    rw [substAll_eq_map]
    exact (List.map_congr_left ih).trans (List.map_id _)
  induction t with
  | bound i => rfl
  | lit l => rfl
  | free x => rfl
  | app f a ihf iha => rw [subst, ihf, iha]
  | lam dom b ih => rw [subst, ih]
  | ann t ty ih => rw [subst, ih]
  | ctor c args ih => rw [subst, each ih]
  | elim e s args ihs ih => rw [subst, ihs, each ih]
  | prim op args ih => rw [subst, each ih]
  | tuple elems ih => rw [subst, each ih]
  | proj t i ih => rw [subst, ih]

theorem subst_eq_self (h : ∀ x ∈ t.names, σ x = none) : t.subst σ = t :=
  (subst_congr h).trans subst_none

theorem mem_names_subst :
    x ∈ (t.subst σ).names ↔ (x ∈ t.names ∧ σ x = none) ∨ ∃ y ∈ t.names, ∃ r, σ y = some r ∧
    x ∈ r.names := by
  have each {ts : List Nameless}
      (ih : ∀ t ∈ ts, x ∈ (t.subst σ).names ↔ (x ∈ t.names ∧ σ x = none) ∨
        ∃ y ∈ t.names, ∃ r, σ y = some r ∧ x ∈ r.names) :
      x ∈ namesAll (substAll σ ts) ↔
        (x ∈ namesAll ts ∧ σ x = none) ∨ ∃ y ∈ namesAll ts, ∃ r, σ y = some r ∧ x ∈ r.names := by
    induction ts with
    | nil => simp [substAll, namesAll]
    | cons t ts ihs =>
      obtain ⟨ht, hts⟩ := List.forall_mem_cons.1 ih
      simp only [substAll, namesAll, List.mem_append, ht, ihs hts, or_and_right, exists_or]
      exact or_or_or_comm
  induction t with
  | bound i => simp [subst, names]
  | lit l => simp [subst, names]
  | free y =>
    rw [subst]
    cases hy : σ y with
    | none =>
      simp only [names, Option.getD_none, List.mem_singleton]
      constructor
      · rintro rfl
        exact .inl ⟨rfl, hy⟩
      · rintro (⟨rfl, -⟩ | ⟨z, rfl, r, hr, -⟩)
        · rfl
        · rw [hy] at hr
          cases hr
    | some r =>
      simp only [names, Option.getD_some, List.mem_singleton]
      constructor
      · intro hx
        exact .inr ⟨y, rfl, r, hy, hx⟩
      · rintro (⟨rfl, hnone⟩ | ⟨z, rfl, s, hs, hx⟩)
        · rw [hy] at hnone
          cases hnone
        · rw [hy] at hs
          cases hs
          exact hx
  | app f a ihf iha =>
    simp only [subst, names, List.mem_append, ihf, iha, or_and_right, exists_or]
    exact or_or_or_comm
  | lam dom b ih => exact ih
  | ann t ty ih => exact ih
  | ctor c args ih => exact each ih
  | elim e s args ihs ih =>
    simp only [subst, names, List.mem_append, ihs, each ih, or_and_right, exists_or]
    exact or_or_or_comm
  | prim op args ih => exact each ih
  | tuple elems ih => exact each ih
  | proj t i ih => exact ih

theorem bare_subst : (t.subst σ).bare = t.bare.subst fun x => (σ x).map bare := by
  have each {ts : List Nameless} (ih : ∀ t ∈ ts, (t.subst σ).bare = t.bare.subst fun x =>
        (σ x).map bare) :
      bareAll (substAll σ ts) = substAll (fun x => (σ x).map bare) (bareAll ts) := by
    simp only [substAll_eq_map, bareAll_eq_map, List.map_map]
    exact List.map_congr_left ih
  induction t with
  | bound i => rfl
  | lit l => rfl
  | free x =>
    rw [subst, bare, subst]
    cases σ x <;> rfl
  | app f a ihf iha => simp only [subst, bare, ihf, iha]
  | lam dom b ih => simp only [subst, bare, ih]
  | ann t ty ih => simp only [subst, bare, ih]
  | ctor c args ih => simp only [subst, bare, each ih]
  | elim e s args ihs ih => simp only [subst, bare, ihs, each ih]
  | prim op args ih => simp only [subst, bare, each ih]
  | tuple elems ih => simp only [subst, bare, each ih]
  | proj t i ih => simp only [subst, bare, ih]

end Nameless

namespace Term

variable {t : Term} {xs ys : List Name} {x : Name}

theorem namelessIn_congr (h : ∀ x ∈ t.free, xs.idxOf? x = ys.idxOf? x) :
    t.namelessIn xs = t.namelessIn ys := by
  have each {ts : List Term} {xs ys : List Name}
      (ih : ∀ t ∈ ts, ∀ {xs ys : List Name}, (∀ x ∈ t.free, xs.idxOf? x = ys.idxOf? x) →
        t.namelessIn xs = t.namelessIn ys)
      (h : ∀ x ∈ freeAll ts, xs.idxOf? x = ys.idxOf? x) : namelessAllIn xs ts =
          namelessAllIn ys ts := by
    rw [namelessAllIn_eq_map, namelessAllIn_eq_map]
    exact List.map_congr_left fun t ht => ih t ht fun x hx => h x (mem_freeAll.2 ⟨t, ht, hx⟩)
  induction t generalizing xs ys with
  | var x => rw [namelessIn, namelessIn, h x List.mem_cons_self]
  | lit l => rfl
  | app f a ihf iha =>
    rw [namelessIn, namelessIn, ihf fun x hx => h x (List.mem_append_left _ hx), iha fun x hx =>
      h x (List.mem_append_right _ hx)]
  | lam x dom b ih =>
    rw [namelessIn, namelessIn, ih fun y hy => idxOf?_cons_congr fun hne =>
      h y (List.mem_filter.2 ⟨hy, by simpa using hne⟩)]
  | ann t ty ih => rw [namelessIn, namelessIn, ih h]
  | ctor c args ih => rw [namelessIn, namelessIn, each ih h]
  | elim e s args ihs ih =>
    rw [namelessIn, namelessIn, ihs fun x hx => h x (List.mem_append_left _ hx),
      each ih fun x hx => h x (List.mem_append_right _ hx)]
  | prim op args ih => rw [namelessIn, namelessIn, each ih h]
  | tuple elems ih => rw [namelessIn, namelessIn, each ih h]
  | proj t i ih => rw [namelessIn, namelessIn, ih h]

theorem mem_names_namelessIn : x ∈ (t.namelessIn xs).names ↔ x ∈ t.free ∧ x ∉ xs := by
  have each {ts : List Term} {xs : List Name}
      (ih : ∀ t ∈ ts, ∀ {xs : List Name}, x ∈ (t.namelessIn xs).names ↔ x ∈ t.free ∧ x ∉ xs) :
      x ∈ Nameless.namesAll (namelessAllIn xs ts) ↔ x ∈ freeAll ts ∧ x ∉ xs := by
    induction ts with
    | nil => simp [namelessAllIn, Nameless.namesAll, freeAll]
    | cons t ts ihs =>
      obtain ⟨ht, hts⟩ := List.forall_mem_cons.1 ih
      simp only [namelessAllIn, Nameless.namesAll, freeAll, List.mem_append, ht, ihs hts,
        or_and_right]
  induction t generalizing xs with
  | var y =>
    rw [namelessIn]
    cases hy : xs.idxOf? y with
    | none =>
      have hmem : y ∉ xs := List.idxOf?_eq_none_iff.1 hy
      simp only [Nameless.names, free, List.mem_singleton]
      exact ⟨fun hx => ⟨hx, hx ▸ hmem⟩, And.left⟩
    | some i =>
      have hmem : y ∈ xs := by
        by_contra hmem
        rw [List.idxOf?_eq_none_iff.2 hmem] at hy
        cases hy
      simp only [Nameless.names, free, List.mem_singleton, List.not_mem_nil, false_iff,
        not_and, Decidable.not_not]
      exact fun hx => hx ▸ hmem
  | lit l => simp [namelessIn, Nameless.names, free]
  | app f a ihf iha =>
    simp only [namelessIn, Nameless.names, free, List.mem_append, ihf, iha, or_and_right]
  | lam y dom b ih =>
    simp only [namelessIn, Nameless.names, free, ih, List.mem_cons, List.mem_filter,
      decide_eq_true_eq, not_or, and_assoc]
  | ann t ty ih => exact ih
  | ctor c args ih => exact each ih
  | elim e s args ihs ih =>
    simp only [namelessIn, Nameless.names, free, List.mem_append, ihs, each ih, or_and_right]
  | prim op args ih => exact each ih
  | tuple elems ih => exact each ih
  | proj t i ih => exact ih

theorem mem_names_nameless : x ∈ t.nameless.names ↔ x ∈ t.free := by
  unfold nameless
  rw [mem_names_namelessIn]
  exact and_iff_left List.not_mem_nil

theorem shortcut_or_iff {t u : Term} {b : Bool}
    (h : b = true ↔ (t.namelessIn xs).bare = (u.namelessIn ys).bare) :
    (xs.isEmpty && ys.isEmpty && t = u || b) = true ↔
    (t.namelessIn xs).bare = (u.namelessIn ys).bare := by
  rw [Bool.or_eq_true, h]
  refine or_iff_right_of_imp fun hsame => ?_
  simp only [Bool.and_eq_true, List.isEmpty_iff, decide_eq_true_eq] at hsame
  obtain ⟨⟨rfl, rfl⟩, rfl⟩ := hsame
  rfl

theorem alphaIn_var_iff {y : Name} :
    alphaIn xs ys t (.var y) = true ↔ (t.namelessIn xs).bare = (namelessIn ys (.var y)).bare := by
  cases t with
  | var x =>
    unfold alphaIn
    refine shortcut_or_iff ?_
    simp only [namelessIn]
    cases xs.idxOf? x <;> cases ys.idxOf? y <;> simp [Nameless.bare]
  | _ =>
    unfold alphaIn
    refine shortcut_or_iff ?_
    simp only [namelessIn]
    cases ys.idxOf? y <;> simp [Nameless.bare]

theorem alphaAllIn_iff {ts us : List Term}
    (h : ∀ t ∈ ts, ∀ {xs ys : List Name} {u : Term},
      alphaIn xs ys t u = true ↔ (t.namelessIn xs).bare = (u.namelessIn ys).bare) :
    alphaAllIn xs ys ts us = true ↔
      Nameless.bareAll (namelessAllIn xs ts) = Nameless.bareAll (namelessAllIn ys us) := by
  induction ts generalizing us with
  | nil => cases us <;> simp [alphaAllIn, namelessAllIn, Nameless.bareAll]
  | cons t ts ih =>
    obtain ⟨ht, hts⟩ := List.forall_mem_cons.1 h
    cases us with
    | nil => simp [alphaAllIn, namelessAllIn, Nameless.bareAll]
    | cons u us => simp [alphaAllIn, namelessAllIn, Nameless.bareAll, ht, ih hts]

/-- Terms are equal up to bound names when their nameless forms are equal up to the annotations
of binders. -/
theorem alphaIn_iff {t u : Term} :
    alphaIn xs ys t u = true ↔ (t.namelessIn xs).bare = (u.namelessIn ys).bare := by
  induction t generalizing xs ys u with
  | var x =>
    cases u with
    | var y => exact alphaIn_var_iff
    | _ =>
      unfold alphaIn
      refine shortcut_or_iff ?_
      simp only [namelessIn]
      cases xs.idxOf? x <;> simp [Nameless.bare]
  | lit l =>
    cases u with
    | var y => exact alphaIn_var_iff
    | _ =>
      unfold alphaIn
      refine shortcut_or_iff ?_
      simp [namelessIn, Nameless.bare]
  | app f a ihf iha =>
    cases u with
    | var y => exact alphaIn_var_iff
    | _ =>
      unfold alphaIn
      refine shortcut_or_iff ?_
      simp [namelessIn, Nameless.bare, ihf, iha]
  | lam x dom b ih =>
    cases u with
    | var y => exact alphaIn_var_iff
    | _ =>
      unfold alphaIn
      refine shortcut_or_iff ?_
      simp [namelessIn, Nameless.bare, ih]
  | ann t ty ih =>
    cases u with
    | var y => exact alphaIn_var_iff
    | _ =>
      unfold alphaIn
      refine shortcut_or_iff ?_
      simp [namelessIn, Nameless.bare, ih, and_comm]
  | ctor c args ih =>
    cases u with
    | var y => exact alphaIn_var_iff
    | _ =>
      unfold alphaIn
      refine shortcut_or_iff ?_
      simp [namelessIn, Nameless.bare, alphaAllIn_iff ih]
  | elim e s args ihs ih =>
    cases u with
    | var y => exact alphaIn_var_iff
    | _ =>
      unfold alphaIn
      refine shortcut_or_iff ?_
      simp [namelessIn, Nameless.bare, ihs, alphaAllIn_iff ih, and_assoc]
  | prim op args ih =>
    cases u with
    | var y => exact alphaIn_var_iff
    | _ =>
      unfold alphaIn
      refine shortcut_or_iff ?_
      simp [namelessIn, Nameless.bare, alphaAllIn_iff ih]
  | tuple elems ih =>
    cases u with
    | var y => exact alphaIn_var_iff
    | _ =>
      unfold alphaIn
      refine shortcut_or_iff ?_
      simp [namelessIn, Nameless.bare, alphaAllIn_iff ih]
  | proj t i ih =>
    cases u with
    | var y => exact alphaIn_var_iff
    | _ =>
      unfold alphaIn
      refine shortcut_or_iff ?_
      simp [namelessIn, Nameless.bare, ih, and_comm]

theorem alpha_iff {t u : Term} : t.alpha u = true ↔ t.nameless.bare = u.nameless.bare := alphaIn_iff

end Term

end ClosedTypes
