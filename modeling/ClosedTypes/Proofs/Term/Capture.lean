import ClosedTypes.Proofs.Term.Nameless
import ClosedTypes.Proofs.Term.Substitution
import Mathlib.Data.Finset.Card
import Mathlib.Data.Finset.Range
import Mathlib.Tactic.Push
/-!
Substitution captures nothing: on nameless forms it is plain replacement of free names. A binder is
renamed first, by a substitution that is followed on its own, since the fresh name may have to get
past binders that have that very name.
-/

namespace ClosedTypes

namespace Name

theorem variant_injective (x : Name) : Function.Injective x.variant := by
  intro i j h
  have h' : x.stem ++ "'" ++ Nat.repr i = x.stem ++ "'" ++ Nat.repr j := h
  rw [← String.toList_inj, String.toList_append, String.toList_append (t := Nat.repr j)] at h'
  have hdigits := List.append_cancel_left h'
  rw [Nat.toList_repr, Nat.toList_repr] at hdigits
  have hvalue := congrArg (Nat.ofDigitChars 10 · 0) hdigits
  simpa only [Nat.ofDigitChars_ten_toDigits] using hvalue

theorem freshVariant_not_mem (x : Name) (taken : List Name) : x.freshVariant taken ∉ taken := by
  unfold freshVariant
  cases h : (List.range taken.length).find? fun i => x.variant (i + 1) ∉ taken with
  | some i => simpa using List.find?_some h
  | none =>
    have hall : ∀ i < taken.length, x.variant (i + 1) ∈ taken := by simpa using h
    intro hlast
    have hsub : (Finset.range (taken.length + 1)).image (fun i => x.variant (i + 1)) ⊆
        taken.toFinset := by
      intro y hy
      obtain ⟨i, hi, rfl⟩ := Finset.mem_image.1 hy
      rw [List.mem_toFinset]
      rcases Nat.lt_succ_iff_lt_or_eq.1 (Finset.mem_range.1 hi) with hi | rfl
      · exact hall i hi
      · exact hlast
    have hcard := (Finset.card_le_card hsub).trans taken.toFinset_card_le
    rw [Finset.card_image_of_injective _ fun i j h => Nat.succ.inj (x.variant_injective h),
      Finset.card_range] at hcard
    omega

end Name

namespace Term

variable {t u : Term} {m : Index Name Term} {avoid xs ys : List Name} {x y : Name}

theorem find?_ofList_singleton {α : Type} (x y : Name) (a : α) :
    (Index.ofList [(x, a)]).find? y = if x = y then some a else none := by
  simp [Index.ofList]

theorem mem_keys_iff {α : Type} {m : Index Name α} : x ∈ m.keys ↔ ∃ a, m.find? x = some a := by
  rw [← Option.ne_none_iff_exists', Index.keys, List.mem_map, Ne, Index.find?,
    Index.look_eq_none_iff]
  push Not
  rfl

theorem any_keys_eq_false_iff :
    m.keys.any (· ∈ t.free) = false ↔ ∀ x ∈ t.free, m.find? x = none := by
  simp only [List.any_eq_false, decide_eq_true_eq, mem_keys_iff]
  constructor
  · intro h x hx
    by_contra hne
    exact h x (Option.ne_none_iff_exists'.1 hne) hx
  · rintro h x ⟨r, hr⟩ hx
    rw [h x hx] at hr
    cases hr

/-- Under `ys` the free variables of `t` are where they were under `xs`, once `x` is called `y`. -/
structure Renamed (x y : Name) (xs ys : List Name) (t : Term) : Prop where
  bound : x ∈ xs
  fresh : y ∉ t.free
  places : ∀ z ∈ t.free, xs.idxOf? z = ys.idxOf? (if z = x then y else z)

theorem renamed_cons (h : y ∉ t.free) : Renamed x y (x :: xs) (y :: xs) t where
  bound := List.mem_cons_self
  fresh := h
  places z hz := by
    by_cases hzx : z = x
    · subst hzx
      rw [if_pos rfl, idxOf?_cons, idxOf?_cons, if_pos rfl, if_pos rfl]
    · have hzy : y ≠ z := fun e => h (e ▸ hz)
      rw [if_neg hzx, idxOf?_cons, idxOf?_cons, if_neg (Ne.symm hzx), if_neg hzy]

theorem Renamed.mono (h : Renamed x y xs ys t) (hsub : ∀ z ∈ u.free, z ∈ t.free) :
    Renamed x y xs ys u :=
  ⟨h.bound, fun hy => h.fresh (hsub y hy), fun z hz => h.places z (hsub z hz)⟩

theorem Renamed.push {z : Name} (h : Renamed x y xs ys t) (hx : z ≠ x) (hy : z ≠ y)
    (hfree : ∀ v ∈ u.free, v = z ∨ v ∈ t.free) :
    Renamed x y (z :: xs) (z :: ys) u where
  bound := List.mem_cons_of_mem _ h.bound
  fresh hmem := (hfree y hmem).elim (fun e => hy e.symm) h.fresh
  places v hv := by
    by_cases hvz : v = z
    · subst hvz
      rw [if_neg hx, idxOf?_cons, idxOf?_cons, if_pos rfl, if_pos rfl]
    · have hv' := h.places v ((hfree v hv).resolve_left hvz)
      have hne : z ≠ if v = x then y else v := by
        split
        · exact hy
        · exact Ne.symm hvz
      rw [idxOf?_cons, idxOf?_cons, if_neg (Ne.symm hvz), if_neg hne, hv']

theorem size_lt_of_mem {ts : List Term} (h : t ∈ ts) : t.size < sizeAll ts := by
  induction ts with
  | nil => cases h
  | cons u us ih =>
    rw [sizeAll]
    rcases List.mem_cons.1 h with rfl | h
    · omega
    · have := ih h
      omega

theorem erase_ofList_singleton {α : Type} {x z : Name} (a : α) (h : z ≠ x) :
    (Index.ofList [(x, a)]).erase z = Index.ofList [(x, a)] := by
  simp [Index.ofList, Index.insert, Index.put, Index.empty, Index.erase, Index.filter, Ne.symm h]

theorem mem_free_lam_of_mem_body {z : Name} {dom : Option Ty} (h : x ∈ t.free) :
    x = z ∨ x ∈ (lam z dom t).free := by
  by_cases hxz : x = z
  · exact .inl hxz
  · exact .inr (List.mem_filter.2 ⟨h, by simpa using hxz⟩)

/-- The name that a binder gets for `x` is not avoided, not free below it and not replaced. -/
theorem freshVariant_apart (h : y = x.freshVariant (avoid ++ t.free ++ m.keys)) :
    y ∉ avoid ∧ y ∉ t.free ∧ m.find? y = none := by
  have hmem : y ∉ avoid ++ t.free ++ m.keys := h ▸ x.freshVariant_not_mem _
  simp only [List.mem_append, not_or, mem_keys_iff, not_exists] at hmem
  exact ⟨hmem.1.1, hmem.1.2, Option.eq_none_iff_forall_ne_some.2 hmem.2⟩

section

variable {z w : Name} {dom : Option Ty} {b r : Term}

theorem namelessIn_replaced_var_var (h : Renamed x y xs ys (.var z)) :
    (replaced [y] (.ofList [(x, .var y)]) (.var z)).namelessIn ys = (var z).namelessIn xs := by
  have hz := h.places z List.mem_cons_self
  rw [replaced_var, find?_ofList_singleton]
  by_cases hzx : z = x
  · subst hzx
    rw [if_pos rfl] at hz ⊢
    have hbound : xs.idxOf? z ≠ none := fun e => List.idxOf?_eq_none_iff.1 e h.bound
    obtain ⟨i, hi⟩ := Option.ne_none_iff_exists'.1 hbound
    rw [Option.getD_some, namelessIn, namelessIn, ← hz, hi]
  · rw [if_neg hzx] at hz
    rw [if_neg (Ne.symm hzx), Option.getD_none, namelessIn, namelessIn, hz]

theorem Renamed.namelessIn_of_idle (h : Renamed x y xs ys (lam z dom b))
    (hidle : ((Index.ofList [(x, var y)]).erase z).keys.any (· ∈ b.free) = false) :
    (lam z dom b).namelessIn ys = (lam z dom b).namelessIn xs := by
  refine namelessIn_congr fun v hv => ?_
  obtain ⟨hvb, hvz⟩ := List.mem_filter.1 hv
  have hvx : v ≠ x := by
    rintro rfl
    have hvz : z ≠ v := by simpa using Ne.symm (of_decide_eq_true hvz)
    have hnone := any_keys_eq_false_iff.1 hidle v hvb
    rw [erase_ofList_singleton _ hvz, find?_ofList_singleton, if_pos rfl] at hnone
    cases hnone
  have hplace := h.places v hv
  rw [if_neg hvx] at hplace
  exact hplace.symm

theorem ne_of_renames_below
    (h : ((Index.ofList [(x, var y)]).erase z).keys.any (· ∈ b.free) = true) : z ≠ x := by
  rintro rfl
  have hnone : ∀ v ∈ b.free, ((Index.ofList [(z, var y)]).erase z).find? v = none := fun v _ => by
    rw [Index.find?_erase, find?_ofList_singleton]
    split
    · rfl
    · rename_i hne
      exact if_neg (Ne.symm hne)
  rw [any_keys_eq_false_iff.2 hnone] at h
  cases h

theorem mem_free_of_namelessIn_eq {v : Name} (h : r.namelessIn [w] = b.namelessIn [z])
    (hv : v ∈ r.free) :
    v = w ∨ v ∈ (lam z dom b).free := by
  by_cases hvw : v = w
  · exact .inl hvw
  · have hnames : v ∈ (r.namelessIn [w]).names := mem_names_namelessIn.2 ⟨hv, by simpa using hvw⟩
    rw [h, mem_names_namelessIn] at hnames
    exact .inr (List.mem_filter.2 ⟨hnames.1, by simpa using hnames.2⟩)

theorem namelessIn_replaced_var_lam
    (ih : ∀ s : Term, s.size = b.size → ∀ {xs ys : List Name} {x y : Name},
      Renamed x y xs ys s → (replaced [y] (.ofList [(x, .var y)]) s).namelessIn ys =
        s.namelessIn xs)
    (h : Renamed x y xs ys (lam z dom b)) :
    (replaced [y] (.ofList [(x, .var y)]) (lam z dom b)).namelessIn ys =
      (lam z dom b).namelessIn xs := by
  cases hidle : ((Index.ofList [(x, var y)]).erase z).keys.any (· ∈ b.free) with
  | false =>
    rw [replaced_lam_of_idle hidle]
    exact h.namelessIn_of_idle hidle
  | true =>
    have hzx : z ≠ x := ne_of_renames_below hidle
    by_cases hzy : z = y
    -- the binder has the new name itself and is renamed out of the way first
    · subst hzy
      obtain ⟨w, hw⟩ : ∃ w, w = z.freshVariant
          ([z] ++ b.free ++ ((Index.ofList [(x, var z)]).erase z).keys) := ⟨_, rfl⟩
      obtain ⟨hwz, hwb, hwx⟩ := freshVariant_apart hw
      rw [erase_ofList_singleton _ hzx, find?_ofList_singleton] at hwx
      have hwx : w ≠ x := fun e => by
        rw [if_pos e.symm] at hwx
        cases hwx
      rw [replaced_lam_of_captures hidle List.mem_cons_self hw, erase_ofList_singleton _ hzx]
      have hsize := size_replaced_var b [w] z w
      have hrename (zs : List Name) :=
        ih b rfl (show Renamed z w (z :: zs) (w :: zs) b from renamed_cons hwb)
      have hrenamed := h.push hwx (fun e => hwz (e ▸ List.mem_cons_self)) fun v =>
        mem_free_of_namelessIn_eq (hrename [])
      rw [namelessIn, namelessIn, ih _ hsize hrenamed, hrename]
    · have hbody := h.push hzx hzy fun v => mem_free_lam_of_mem_body
      rw [replaced_lam_of_mem_free hidle (by simpa using hzy), erase_ofList_singleton _ hzx,
        namelessIn, namelessIn, ih b rfl hbody]

end

theorem namelessIn_replaced_var (t : Term) {xs ys : List Name} {x y : Name}
    (h : Renamed x y xs ys t) :
    (replaced [y] (.ofList [(x, .var y)]) t).namelessIn ys = t.namelessIn xs := by
  have each {ts : List Term}
      (hts : ∀ t ∈ ts, (replaced [y] (.ofList [(x, .var y)]) t).namelessIn ys = t.namelessIn xs) :
      namelessAllIn ys (ts.map (replaced [y] (.ofList [(x, .var y)]))) = namelessAllIn xs ts := by
    rw [namelessAllIn_eq_map, namelessAllIn_eq_map, List.map_map]
    exact List.map_congr_left hts
  match t with
  | .var z => exact namelessIn_replaced_var_var h
  | .lit l => rw [replaced_lit, namelessIn, namelessIn]
  | .app f a =>
    have hf : Renamed x y xs ys f := h.mono fun z hz => List.mem_append_left _ hz
    have ha : Renamed x y xs ys a := h.mono fun z hz => List.mem_append_right _ hz
    rw [replaced_app, namelessIn, namelessIn, namelessIn_replaced_var f hf,
      namelessIn_replaced_var a ha]
  | .lam z dom b =>
    exact namelessIn_replaced_var_lam (fun s hs {xs ys x y} hrenamed =>
      namelessIn_replaced_var s hrenamed) h
  | .ann t ty =>
    rw [replaced_ann, namelessIn, namelessIn, namelessIn_replaced_var t (h.mono fun _ hz => hz)]
  | .ctor c args =>
    rw [replaced_ctor, namelessIn, namelessIn, each fun t ht => ?_]
    exact namelessIn_replaced_var t (h.mono fun z hz => mem_freeAll.2 ⟨t, ht, hz⟩)
  | .elim e s args =>
    have hs : Renamed x y xs ys s := h.mono fun z hz => List.mem_append_left _ hz
    rw [replaced_elim, namelessIn, namelessIn, namelessIn_replaced_var s hs, each fun t ht => ?_]
    exact namelessIn_replaced_var t
      (h.mono fun z hz => List.mem_append_right _ (mem_freeAll.2 ⟨t, ht, hz⟩))
  | .prim op args =>
    rw [replaced_prim, namelessIn, namelessIn, each fun t ht => ?_]
    exact namelessIn_replaced_var t (h.mono fun z hz => mem_freeAll.2 ⟨t, ht, hz⟩)
  | .tuple elems =>
    rw [replaced_tuple, namelessIn, namelessIn, each fun t ht => ?_]
    exact namelessIn_replaced_var t (h.mono fun z hz => mem_freeAll.2 ⟨t, ht, hz⟩)
  | .proj t i =>
    rw [replaced_proj, namelessIn, namelessIn, namelessIn_replaced_var t (h.mono fun _ hz => hz)]
termination_by t.size
decreasing_by
  all_goals
    simp only [size]
    try have := size_lt_of_mem ht
    omega

theorem namelessIn_replaced_of_var {x : Name}
    (hm : ∀ r, m.find? x = some r → ∀ y ∈ r.free, y ∈ avoid)
    (hxs : ∀ y ∈ xs, y ∉ avoid ∧ m.find? y = none) :
    (replaced avoid m (.var x)).namelessIn xs =
      ((var x).namelessIn xs).subst fun y => (m.find? y).map nameless := by
  rw [replaced_var]
  cases hx : m.find? x with
  | none =>
    rw [Option.getD_none, namelessIn]
    cases xs.idxOf? x with
    | none => rw [Nameless.subst, hx, Option.map_none, Option.getD_none]
    | some i => rw [Nameless.subst]
  | some r =>
    have hbound : xs.idxOf? x = none := List.idxOf?_eq_none_iff.2 fun h => by
      rw [(hxs x h).2] at hx
      cases hx
    rw [Option.getD_some, namelessIn, hbound, Nameless.subst, hx, Option.map_some,
      Option.getD_some]
    refine namelessIn_congr fun y hy => ?_
    exact List.idxOf?_eq_none_iff.2 fun h => (hxs y h).1 (hm r hx y hy)

theorem namelessIn_replaced_of_lam {x : Name} {dom : Option Ty} {b : Term}
    (ih : ∀ s : Term, s.size = b.size → ∀ {xs : List Name} {m : Index Name Term},
      (∀ x r, m.find? x = some r → ∀ y ∈ r.free, y ∈ avoid) →
      (∀ x ∈ xs, x ∉ avoid ∧ m.find? x = none) →
      (replaced avoid m s).namelessIn xs =
        (s.namelessIn xs).subst fun x => (m.find? x).map nameless)
    (hm : ∀ x r, m.find? x = some r → ∀ y ∈ r.free, y ∈ avoid)
    (hxs : ∀ x ∈ xs, x ∉ avoid ∧ m.find? x = none) :
    (replaced avoid m (.lam x dom b)).namelessIn xs =
      ((lam x dom b).namelessIn xs).subst fun y => (m.find? y).map nameless := by
  -- below the binder `x` is no longer replaced, and it does not occur there as a free name either
  have hinner : ∀ y r, (m.erase x).find? y = some r → ∀ z ∈ r.free, z ∈ avoid :=
    fun y r hy => hm y r (Index.find?_of_find?_erase hy)
  have hshadow : ((b.namelessIn (x :: xs)).subst fun y => ((m.erase x).find? y).map nameless) =
      (b.namelessIn (x :: xs)).subst fun y => (m.find? y).map nameless := by
    refine Nameless.subst_congr fun y hy => ?_
    have hne : y ≠ x := fun e => (mem_names_namelessIn.1 hy).2 (e ▸ List.mem_cons_self)
    rw [Index.find?_erase, if_neg hne]
  have hpush {y : Name} (hy : y ∉ avoid) (hnone : (m.erase x).find? y = none) :
      ∀ z ∈ y :: xs, z ∉ avoid ∧ (m.erase x).find? z = none := by
    refine List.forall_mem_cons.2 ⟨⟨hy, hnone⟩, fun z hz => ⟨(hxs z hz).1, ?_⟩⟩
    rw [Index.find?_erase, (hxs z hz).2, ite_self]
  cases hidle : (m.erase x).keys.any (· ∈ b.free) with
  | false =>
    rw [replaced_lam_of_idle hidle, namelessIn, Nameless.subst, ← hshadow,
      Nameless.subst_eq_self fun y hy => ?_]
    rw [any_keys_eq_false_iff.1 hidle y (mem_names_namelessIn.1 hy).1, Option.map_none]
  | true =>
    by_cases hx : x ∈ avoid
    · obtain ⟨y, hy⟩ : ∃ y, y = x.freshVariant (avoid ++ b.free ++ (m.erase x).keys) := ⟨_, rfl⟩
      obtain ⟨hya, hyb, hnone⟩ := freshVariant_apart hy
      have hsize := size_replaced_var b [y] x y
      rw [replaced_lam_of_captures hidle hx hy, namelessIn, namelessIn, Nameless.subst,
        ih _ hsize hinner (hpush hya hnone), namelessIn_replaced_var b (renamed_cons hyb), hshadow]
    · have hnone : (m.erase x).find? x = none := by rw [Index.find?_erase, if_pos rfl]
      rw [replaced_lam_of_mem_free hidle hx, namelessIn, namelessIn, Nameless.subst,
        ih b rfl hinner (hpush hx hnone), hshadow]

/-- Under binders that are neither replaced nor avoided, a substitution that avoids all that is
free in its replacements is plain replacement on the nameless form. -/
theorem namelessIn_replaced (t : Term) {avoid xs : List Name} {m : Index Name Term}
    (hm : ∀ x r, m.find? x = some r → ∀ y ∈ r.free, y ∈ avoid)
    (hxs : ∀ x ∈ xs, x ∉ avoid ∧ m.find? x = none) :
    (replaced avoid m t).namelessIn xs = (t.namelessIn xs).subst fun x =>
      (m.find? x).map nameless := by
  have each {ts : List Term}
      (hts : ∀ t ∈ ts, (replaced avoid m t).namelessIn xs = (t.namelessIn xs).subst fun x =>
        (m.find? x).map nameless) :
      namelessAllIn xs (ts.map (replaced avoid m)) =
        Nameless.substAll (fun x => (m.find? x).map nameless) (namelessAllIn xs ts) := by
    rw [namelessAllIn_eq_map, namelessAllIn_eq_map, Nameless.substAll_eq_map, List.map_map,
      List.map_map]
    exact List.map_congr_left hts
  match t with
  | .var x => exact namelessIn_replaced_of_var (hm x) hxs
  | .lit l => rw [replaced_lit, namelessIn, Nameless.subst]
  | .app f a =>
    rw [replaced_app, namelessIn, namelessIn, Nameless.subst, namelessIn_replaced f hm hxs,
      namelessIn_replaced a hm hxs]
  | .lam x dom b =>
    exact namelessIn_replaced_of_lam (fun s hs {xs m} hm hxs => namelessIn_replaced s hm hxs) hm hxs
  | .ann t ty =>
    rw [replaced_ann, namelessIn, namelessIn, Nameless.subst, namelessIn_replaced t hm hxs]
  | .ctor c args =>
    rw [replaced_ctor, namelessIn, namelessIn, Nameless.subst, each fun t ht => ?_]
    exact namelessIn_replaced t hm hxs
  | .elim e s args =>
    rw [replaced_elim, namelessIn, namelessIn, Nameless.subst, namelessIn_replaced s hm hxs,
      each fun t ht => ?_]
    exact namelessIn_replaced t hm hxs
  | .prim op args =>
    rw [replaced_prim, namelessIn, namelessIn, Nameless.subst, each fun t ht => ?_]
    exact namelessIn_replaced t hm hxs
  | .tuple elems =>
    rw [replaced_tuple, namelessIn, namelessIn, Nameless.subst, each fun t ht => ?_]
    exact namelessIn_replaced t hm hxs
  | .proj t i =>
    rw [replaced_proj, namelessIn, namelessIn, Nameless.subst, namelessIn_replaced t hm hxs]
termination_by t.size
decreasing_by
  all_goals
    simp only [size]
    try have := size_lt_of_mem ht
    omega

theorem mem_values_free {r : Term} {y : Name} (hx : m.find? x = some r) (hy : y ∈ r.free) :
    y ∈ m.values.flatMap free :=
  List.mem_flatMap.2 ⟨r, List.mem_map.2 ⟨_, Index.mem_of_look hx, rfl⟩, hy⟩

theorem nameless_subst (t : Term) (m : Index Name Term) :
    (t.subst m).nameless = t.nameless.subst fun x => (m.find? x).map nameless := by
  rw [subst_eq_replaced]
  exact namelessIn_replaced t (fun _ _ hx _ hy => mem_values_free hx hy) nofun

theorem mem_free_subst :
    x ∈ (t.subst m).free ↔ (x ∈ t.free ∧ m.find? x = none) ∨ ∃ y ∈ t.free, ∃ r, m.find? y = some r ∧
    x ∈ r.free := by
  rw [← mem_names_nameless, nameless_subst, Nameless.mem_names_subst]
  simp only [mem_names_nameless, Option.map_eq_none_iff, Option.map_eq_some_iff,
    exists_exists_and_eq_and]

theorem free_replaced_var {y z : Name} (h : z ∈ (replaced [y] (.ofList [(x, .var y)]) t).free) :
    z = y ∨ z ∈ t.free ∧ z ≠ x := by
  have hsubst : replaced [y] (.ofList [(x, .var y)]) t = t.subst (.ofList [(x, .var y)]) := rfl
  rw [hsubst, mem_free_subst] at h
  simp only [find?_ofList_singleton] at h
  rcases h with ⟨hz, hnone⟩ | ⟨v, -, r, hr, hz⟩
  · exact .inr ⟨hz, fun e => by simp [e] at hnone⟩
  · split at hr <;> cases hr
    exact .inl (List.mem_singleton.1 hz)

theorem alpha_subst {m' : Index Name Term} (h : t.alpha u = true)
    (hm : ∀ x, Option.Rel (fun r s => r.alpha s = true) (m.find? x) (m'.find? x)) :
    (t.subst m).alpha (u.subst m') = true := by
  rw [alpha_iff, nameless_subst, nameless_subst, Nameless.bare_subst, Nameless.bare_subst,
    alpha_iff.1 h]
  refine Nameless.subst_congr fun x _ => ?_
  have hx := hm x
  generalize m.find? x = r, m'.find? x = s at hx
  cases hx with
  | some hrs => exact congrArg some (alpha_iff.1 hrs)
  | none => rfl

/-- Substitution is capture-avoiding and simultaneous: on nameless forms it puts the nameless
form of each replacement for the free occurrences of its name and does nothing else. So no free
variable is lost or gained on the way, and terms and replacements that are equal up to bound
names give results that are. -/
theorem subst_plain_on_nameless (t : Term) (m : Index Name Term) :
    (t.subst m).nameless = (t.nameless.subst fun x => (m.find? x).map nameless) ∧
      (∀ x, x ∈ (t.subst m).free ↔
        (x ∈ t.free ∧ m.find? x = none) ∨ ∃ y ∈ t.free, ∃ r, m.find? y = some r ∧ x ∈ r.free) ∧
      (∀ u m', t.alpha u = true →
        (∀ x, Option.Rel (fun r s => r.alpha s = true) (m.find? x) (m'.find? x)) →
        (t.subst m).alpha (u.subst m') = true) ∧
      ∀ x r, (t.instantiate x r).nameless = t.nameless.subst fun y => if x = y then
        some r.nameless else none := by
  refine ⟨nameless_subst t m, fun x => mem_free_subst, fun u m' => alpha_subst, fun x r => ?_⟩
  rw [instantiate, nameless_subst]
  congr 1
  funext y
  rw [find?_ofList_singleton]
  split <;> rfl

theorem subst_under_capturing_binder :
    ((lam "y" none (.app (.var "x") (.var "y"))).subst (.ofList [("x", .var "y")])).nameless =
        .lam none (.app (.free "y") (.bound 0)) ∧
      (lam "y" none (.app (.var "x") (.var "y"))).alpha
        (lam "z" none (.app (.var "x") (.var "z"))) = true ∧
      ((lam "y" none (.app (.var "x") (.var "y"))).subst (.ofList [("x", .var "y")])).alpha
        ((lam "z" none (.app (.var "x") (.var "z"))).subst (.ofList [("x", .var "y")])) = true := by
  obtain ⟨hnameless, -, halpha, -⟩ :=
    subst_plain_on_nameless (lam "y" none (.app (.var "x") (.var "y"))) (.ofList [("x", .var "y")])
  refine ⟨hnameless.trans rfl, rfl, halpha _ _ rfl fun x => ?_⟩
  cases (Index.ofList [("x", var "y")]).find? x with
  | none => exact .none
  | some r => exact .some (alpha_iff.2 rfl)

end Term

end ClosedTypes
