import ClosedTypes.Ty
/-!
Substitution in types, for variables and metavariables at once. Every substitution of the library is
of this kind, and two of them one after the other are again one.
-/

namespace ClosedTypes.Ty

@[induction_eliminator]
theorem induct {P : Ty → Prop} (var : ∀ x, P (.var x)) (metavar : ∀ i, P (.metavar i))
    (const : ∀ c args, (∀ t ∈ args, P t) → P (.const c args))
    (arrow : ∀ d c, P d → P c → P (.arrow d c))
    (prim : ∀ p, P (.prim p)) (tuple : ∀ elems, (∀ t ∈ elems, P t) → P (.tuple elems)) (t : Ty) :
    P t :=
  Ty.rec (motive_1 := P) (motive_2 := fun ts => ∀ t ∈ ts, P t) var metavar const arrow
    prim tuple nofun
    (fun _ _ h hs => List.forall_mem_cons.2 ⟨h, hs⟩) t

theorem anyAll_eq (p : Ty → Bool) (ts : List Ty) : anyAll p ts = ts.any (any p) := by
  induction ts with
  | nil => rfl
  | cons t ts ih => rw [anyAll, ih, List.any_cons]

theorem replaceAll_eq_map (f : Ty → Option Ty) (ts : List Ty) :
    replaceAll f ts = ts.map (replace f) := by
  induction ts with
  | nil => rfl
  | cons t ts ih => rw [replaceAll, ih, List.map_cons]

theorem varOccurrencesAll_eq (ts : List Ty) : varOccurrencesAll ts = ts.flatMap varOccurrences := by
  induction ts with
  | nil => rfl
  | cons t ts ih => rw [varOccurrencesAll, ih, List.flatMap_cons]

theorem mem_vars {t : Ty} {x : Name} : x ∈ t.vars ↔ x ∈ t.varOccurrences := List.mem_eraseDups

section

variable {i j : UInt32}

@[simp] theorem mentionsMetavar_var (x : Name) : (var x).mentionsMetavar i = false := rfl

@[simp] theorem mentionsMetavar_metavar : (metavar j).mentionsMetavar i = decide (j = i) := rfl

@[simp] theorem mentionsMetavar_prim (p : Prim) : (prim p).mentionsMetavar i = false := rfl

@[simp] theorem mentionsMetavar_arrow (d c : Ty) :
    (arrow d c).mentionsMetavar i = (d.mentionsMetavar i || c.mentionsMetavar i) := rfl

@[simp] theorem mentionsMetavar_const (c : Name) (args : List Ty) :
    (const c args).mentionsMetavar i = args.any (·.mentionsMetavar i) := anyAll_eq _ args

@[simp] theorem mentionsMetavar_tuple (elems : List Ty) :
    (tuple elems).mentionsMetavar i = elems.any (·.mentionsMetavar i) := anyAll_eq _ elems

end

mutual

def bind (θ : Name → Ty) (σ : UInt32 → Ty) : Ty → Ty
  | var x => θ x
  | metavar i => σ i
  | prim p => prim p
  | const c args => const c (bindAll θ σ args)
  | arrow d c => arrow (bind θ σ d) (bind θ σ c)
  | tuple elems => tuple (bindAll θ σ elems)

def bindAll (θ : Name → Ty) (σ : UInt32 → Ty) : List Ty → List Ty
  | [] => []
  | t :: ts => bind θ σ t :: bindAll θ σ ts

end

abbrev fill (σ : UInt32 → Ty) : Ty → Ty := bind var σ

variable {θ θ' : Name → Ty} {σ σ' : UInt32 → Ty}

theorem bindAll_eq_map (ts : List Ty) : bindAll θ σ ts = ts.map (bind θ σ) := by
  induction ts with
  | nil => rfl
  | cons t ts ih => rw [bindAll, ih, List.map_cons]

@[simp] theorem bind_var (x : Name) : (var x).bind θ σ = θ x := rfl

@[simp] theorem bind_metavar (i : UInt32) : (metavar i).bind θ σ = σ i := rfl

@[simp] theorem bind_prim (p : Prim) : (prim p).bind θ σ = prim p := rfl

@[simp] theorem bind_arrow (d c : Ty) : (arrow d c).bind θ σ = arrow (d.bind θ σ) (c.bind θ σ) :=
  rfl

@[simp] theorem bind_const (c : Name) (args : List Ty) :
    (const c args).bind θ σ = const c (args.map (bind θ σ)) := by
  rw [bind, bindAll_eq_map]

@[simp] theorem bind_tuple (elems : List Ty) :
    (tuple elems).bind θ σ = tuple (elems.map (bind θ σ)) := by
  rw [bind, bindAll_eq_map]

theorem bind_bind (t : Ty) :
    (t.bind θ σ).bind θ' σ' = t.bind (fun x => (θ x).bind θ' σ') fun i => (σ i).bind θ' σ' := by
  induction t with
  | const c args ih => simpa using ih
  | arrow d c ihd ihc => simp [ihd, ihc]
  | tuple elems ih => simpa using ih
  | _ => rfl

theorem bind_congr {t : Ty} (hv : ∀ x ∈ t.varOccurrences, θ x = θ' x)
    (hm : ∀ i, t.mentionsMetavar i = true → σ i = σ' i) : t.bind θ σ = t.bind θ' σ' := by
  induction t with
  | var x => exact hv x List.mem_cons_self
  | metavar i => exact hm i (by simp)
  | prim p => rfl
  | const c args ih =>
    simp only [varOccurrences, varOccurrencesAll_eq, List.mem_flatMap] at hv
    simp only [mentionsMetavar_const, List.any_eq_true] at hm
    simpa using fun t ht => ih t ht (fun x hx => hv x ⟨t, ht, hx⟩) fun i hi => hm i ⟨t, ht, hi⟩
  | arrow d c ihd ihc =>
    simp only [varOccurrences, List.mem_append] at hv
    simp only [mentionsMetavar_arrow, Bool.or_eq_true] at hm
    rw [bind_arrow, bind_arrow, ihd (fun x hx => hv x (.inl hx)) fun i hi => hm i (.inl hi),
      ihc (fun x hx => hv x (.inr hx)) fun i hi => hm i (.inr hi)]
  | tuple elems ih =>
    simp only [varOccurrences, varOccurrencesAll_eq, List.mem_flatMap] at hv
    simp only [mentionsMetavar_tuple, List.any_eq_true] at hm
    simpa using fun t ht => ih t ht (fun x hx => hv x ⟨t, ht, hx⟩) fun i hi => hm i ⟨t, ht, hi⟩

theorem bind_id (t : Ty) : t.bind var metavar = t := by
  induction t with
  | const c args ih => rw [bind_const, (List.map_congr_left ih).trans (List.map_id' args)]
  | arrow d c ihd ihc => rw [bind_arrow, ihd, ihc]
  | tuple elems ih => rw [bind_tuple, (List.map_congr_left ih).trans (List.map_id' elems)]
  | _ => rfl

theorem bind_eq_self {t : Ty} (hv : ∀ x ∈ t.varOccurrences, θ x = var x)
    (hm : ∀ i, t.mentionsMetavar i = true → σ i = metavar i) : t.bind θ σ = t :=
  (bind_congr hv hm).trans (bind_id t)

theorem subst_eq_bind (t : Ty) (m : Index Name Ty) :
    t.subst m = t.bind (fun x => (m.find? x).getD (var x)) metavar := by
  unfold subst
  induction t with
  | const c args ih => simpa [replace, replaceAll_eq_map] using ih
  | arrow d c ihd ihc => simp [replace, ihd, ihc]
  | tuple elems ih => simpa [replace, replaceAll_eq_map] using ih
  | _ => rfl

theorem substMetavars_eq_bind (t : Ty) (m : UInt32 → Option Ty) :
    t.substMetavars m = t.fill fun i => (m i).getD (metavar i) := by
  unfold substMetavars
  induction t with
  | const c args ih => simpa [replace, replaceAll_eq_map] using ih
  | arrow d c ihd ihc => simp [replace, ihd, ihc]
  | tuple elems ih => simpa [replace, replaceAll_eq_map] using ih
  | _ => rfl

theorem mentionsMetavar_bind {t : Ty} {k : UInt32} :
    (t.bind θ σ).mentionsMetavar k = true ↔
      (∃ x ∈ t.varOccurrences, (θ x).mentionsMetavar k = true) ∨
        ∃ i, t.mentionsMetavar i = true ∧ (σ i).mentionsMetavar k = true := by
  have all (ts : List Ty)
      (ih : ∀ t ∈ ts, (t.bind θ σ).mentionsMetavar k = true ↔
        (∃ x ∈ t.varOccurrences, (θ x).mentionsMetavar k = true) ∨
          ∃ i, t.mentionsMetavar i = true ∧ (σ i).mentionsMetavar k = true) :
      (ts.map (bind θ σ)).any (·.mentionsMetavar k) = true ↔
        (∃ x ∈ varOccurrencesAll ts, (θ x).mentionsMetavar k = true) ∨
          ∃ i, ts.any (·.mentionsMetavar i) = true ∧ (σ i).mentionsMetavar k = true := by
    simp only [List.any_map, List.any_eq_true, Function.comp_apply, varOccurrencesAll_eq,
      List.mem_flatMap]
    constructor
    · rintro ⟨t, ht, hk⟩
      rcases (ih t ht).1 hk with ⟨x, hx, h⟩ | ⟨i, hi, h⟩
      · exact .inl ⟨x, ⟨t, ht, hx⟩, h⟩
      · exact .inr ⟨i, ⟨t, ht, hi⟩, h⟩
    · rintro (⟨x, ⟨t, ht, hx⟩, h⟩ | ⟨i, ⟨t, ht, hi⟩, h⟩)
      · exact ⟨t, ht, (ih t ht).2 (.inl ⟨x, hx, h⟩)⟩
      · exact ⟨t, ht, (ih t ht).2 (.inr ⟨i, hi, h⟩)⟩
  induction t with
  | var x => simp [varOccurrences]
  | metavar i => simp [varOccurrences]
  | prim p => simp [varOccurrences]
  | const c args ih =>
    rw [bind_const]
    simp only [mentionsMetavar_const]
    exact all args ih
  | arrow d c ihd ihc =>
    simp only [bind_arrow, mentionsMetavar_arrow, Bool.or_eq_true, ihd, ihc, varOccurrences,
      List.mem_append, or_and_right, exists_or]
    exact or_or_or_comm
  | tuple elems ih =>
    rw [bind_tuple]
    simp only [mentionsMetavar_tuple]
    exact all elems ih

@[simp] theorem telescope_arrow (d c : Ty) : (arrow d c).telescope = (d :: c.doms, c.result) := rfl

theorem arrows_doms_result (t : Ty) : arrows t.doms t.result = t := by
  induction t with
  | arrow d c _ ihc => exact congrArg (arrow d) ihc
  | _ => rfl

theorem doms_result (t : Ty) : t.result.doms = [] := by
  induction t with
  | arrow d c _ ihc => exact ihc
  | _ => rfl

theorem mem_varOccurrences_iff {t : Ty} {x : Name} :
    x ∈ t.varOccurrences ↔ (∃ d ∈ t.doms, x ∈ d.varOccurrences) ∨ x ∈ t.result.varOccurrences := by
  induction t with
  | arrow d c _ ihc =>
    rw [varOccurrences, List.mem_append, ihc, ← or_assoc]
    exact or_congr_left (by simp [doms])
  | _ => simp [doms, result, telescope]

theorem bind_arrows (ds : List Ty) (c : Ty) :
    (arrows ds c).bind θ σ = arrows (ds.map (bind θ σ)) (c.bind θ σ) := by
  induction ds with
  | nil => rfl
  | cons d ds ih => exact congrArg (arrow (d.bind θ σ)) ih

theorem telescope_arrows {ds : List Ty} {c : Ty} (h : c.doms = []) :
    (arrows ds c).telescope = (ds, c) := by
  induction ds with
  | nil =>
    cases c with
    | arrow d c => cases h
    | _ => rfl
  | cons d ds ih =>
    change (d :: (arrows ds c).telescope.1, (arrows ds c).telescope.2) = _
    rw [ih]

theorem telescope_bind {t : Ty} (h : (t.result.bind θ σ).doms = []) :
    (t.bind θ σ).telescope = (t.doms.map (bind θ σ), t.result.bind θ σ) := by
  conv => lhs; rw [← arrows_doms_result t, bind_arrows]
  exact telescope_arrows h

end ClosedTypes.Ty
