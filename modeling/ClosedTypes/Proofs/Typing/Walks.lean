import ClosedTypes.Proofs.Typing.Runs
import ClosedTypes.Typing.Walks
/-!
The walks along solutions end in every state of the checker, without any bound, since no solution
ever leads back to itself. The bounds of `resolve`, `zonk` and `unify` are large enough to come to
the same.
-/

namespace ClosedTypes

section

variable {α β : Type} {step : (α → β) → α → β} {x : α} {v : β}

theorem Ends.of_le {depth n : Nat} (h : ∀ deeper : α → β, (step^[depth] deeper) x = v)
    (hn : depth ≤ n) (deeper : α → β) :
    (step^[n] deeper) x = v := by
  obtain ⟨more, rfl⟩ := Nat.exists_eq_add_of_le hn
  rw [Function.iterate_add_apply]
  exact h _

theorem ends_uniformly {f : α → β} {calls : List α} (h : ∀ y ∈ calls, Ends step y (f y)) :
    ∃ depth, ∀ y ∈ calls, ∀ deeper : α → β, (step^[depth] deeper) y = f y := by
  induction calls with
  | nil => exact ⟨0, nofun⟩
  | cons y calls ih =>
    obtain ⟨hy, hcalls⟩ := List.forall_mem_cons.1 h
    obtain ⟨m, hm⟩ := hy
    obtain ⟨n, hn⟩ := ih hcalls
    refine ⟨max m n, List.forall_mem_cons.2 ⟨?_, fun z hz => ?_⟩⟩
    · exact Ends.of_le hm (Nat.le_max_left m n)
    · exact Ends.of_le (hn z hz) (Nat.le_max_right m n)

theorem Ends.of_calls (f : α → β) (calls : List α) (h : ∀ y ∈ calls, Ends step y (f y))
    (hx : ∀ deeper : α → β, (∀ y ∈ calls, deeper y = f y) → step deeper x = v) : Ends step x v := by
  obtain ⟨depth, hdepth⟩ := ends_uniformly h
  refine ⟨depth + 1, fun deeper => ?_⟩
  rw [Function.iterate_succ_apply']
  exact hx _ fun y hy => hdepth y hy deeper

theorem Ends.of_step (hx : ∀ deeper, step deeper x = v) : Ends step x v := ⟨1, hx⟩

theorem Ends.congr {y : α} (h : Ends step y v) (hstep : ∀ deeper, step deeper x = step deeper y) :
    Ends step x v := by
  obtain ⟨depth, hdepth⟩ := h
  refine ⟨depth + 1, fun deeper => ?_⟩
  rw [Function.iterate_succ_apply', hstep, ← Function.iterate_succ_apply' step]
  exact Ends.of_le hdepth (Nat.le_succ depth) deeper

end

theorem Ty.sizeOf_lt_of_mem_parts {t u : Ty} (hu : u ∈ t.parts) : sizeOf u < sizeOf t := by
  cases t with
  | const c args =>
    have hlt := List.sizeOf_lt_of_mem hu
    simp only [parts, const.sizeOf_spec] at hlt ⊢
    omega
  | tuple elems =>
    have hlt := List.sizeOf_lt_of_mem hu
    simp only [parts, tuple.sizeOf_spec] at hlt ⊢
    omega
  | arrow d c =>
    rw [arrow.sizeOf_spec]
    rcases List.mem_pair.1 hu with rfl | rfl <;> omega
  | _ => cases hu

namespace Solutions

variable {s s' : Solutions} {a b t u : Ty} {i j : UInt32}

theorem Acyclic.wellFounded (h : s.Acyclic) : WellFounded fun j i => s.Mentions i j := by
  classical
  obtain ⟨rank, hr⟩ := h
  let height (i : UInt32) : Nat := if s.solution? i = none then 0 else rank i + 1
  refine Subrelation.wf (r := InvImage (· < ·) height) (fun {j i} hij => ?_)
    (InvImage.wf height Nat.lt_wfRel.wf)
  obtain ⟨t, ht, hj⟩ := hij
  have hi : s.solution? i ≠ none := by simp [ht]
  show height j < height i
  by_cases hopen : s.solution? j = none
  · simp [height, hopen, hi]
  · have hlt := hr i t j ht hj hopen
    simp [height, hopen, hi, hlt]

theorem ends_resolveWithin {rank : UInt32 → Nat} (hr : s.Ranked rank) {n : Nat}
    (h : ∀ j, t = .metavar j → s.solution? j ≠ none → rank j < n) :
    Ends s.resolveStep t (s.resolveWithin n t) := by
  induction n generalizing t with
  | zero =>
    refine .of_step fun deeper => ?_
    cases t with
    | metavar j =>
      have hopen : s.solution? j = none := by
        by_contra hs
        exact absurd (h j rfl hs) (Nat.not_lt_zero _)
      simp [resolveStep, resolveWithin, hopen]
    | _ => rfl
  | succ n ih =>
    cases t with
    | metavar j =>
      cases hs : s.solution? j with
      | none => exact .of_step fun deeper => by simp [resolveStep, resolveWithin, hs]
      | some u =>
        have hj : rank j < n + 1 := h j rfl (by simp [hs])
        have hu : Ends s.resolveStep u (s.resolveWithin n u) := ih fun k hk hsk => by
          have hlt := hr j u k hs (by simp [hk]) hsk
          omega
        refine .of_calls (s.resolveWithin n) [u] (List.forall_mem_singleton.2 hu)
          fun deeper hdeeper => ?_
        rw [List.forall_mem_singleton] at hdeeper
        simp [resolveStep, resolveWithin, hs, hdeeper]
    | _ => exact .of_step fun deeper => rfl

theorem Acyclic.ends_resolve (h : s.Acyclic) (t : Ty) : Ends s.resolveStep t (s.resolve t) := by
  obtain ⟨rank, hr, hb⟩ := h.bounded
  exact ends_resolveWithin hr fun j _ hs => hb j hs

@[simp] theorem zonk_var (s : Solutions) (x : Name) : s.zonk (.var x) = .var x := by
  rw [zonk_eq_fill, Ty.fill, Ty.bind_var]

@[simp] theorem zonk_prim (s : Solutions) (p : Prim) : s.zonk (.prim p) = .prim p := by
  rw [zonk_eq_fill, Ty.fill, Ty.bind_prim]

theorem map_fill_zonk (s : Solutions) (ts : List Ty) :
    ts.map (Ty.fill fun i => s.zonk (.metavar i)) = ts.map s.zonk :=
  List.map_congr_left fun t _ => (zonk_eq_fill s t).symm

@[simp] theorem zonk_const (s : Solutions) (c : Name) (args : List Ty) :
    s.zonk (.const c args) = .const c (args.map s.zonk) := by
  rw [zonk_eq_fill, Ty.fill, Ty.bind_const]
  exact congrArg (Ty.const c) (map_fill_zonk s args)

@[simp] theorem zonk_tuple (s : Solutions) (elems : List Ty) :
    s.zonk (.tuple elems) = .tuple (elems.map s.zonk) := by
  rw [zonk_eq_fill, Ty.fill, Ty.bind_tuple]
  exact congrArg Ty.tuple (map_fill_zonk s elems)

@[simp] theorem zonk_arrow (s : Solutions) (d c : Ty) :
    s.zonk (.arrow d c) = .arrow (s.zonk d) (s.zonk c) := by
  rw [zonk_eq_fill, Ty.fill, Ty.bind_arrow, zonk_eq_fill s d, zonk_eq_fill s c]

theorem Acyclic.zonk_resolve (h : s.Acyclic) (t : Ty) : s.zonk (s.resolve t) = s.zonk t := by
  have within (n : Nat) (t : Ty) : s.zonk (s.resolveWithin n t) = s.zonk t := by
    induction n generalizing t with
    | zero => rfl
    | succ n ih =>
      cases t with
      | metavar i =>
        rw [resolveWithin]
        cases hs : s.solution? i with
        | none => rfl
        | some u => exact (ih u).trans (h.zonk_metavar hs).symm
      | _ => rfl
  exact within s.size t

theorem zonk_mem_parts (s : Solutions) (hu : u ∈ t.parts) : s.zonk u ∈ (s.zonk t).parts := by
  cases t with
  | const c args =>
    rw [zonk_const]
    exact List.mem_map_of_mem hu
  | tuple elems =>
    rw [zonk_tuple]
    exact List.mem_map_of_mem hu
  | arrow d c =>
    rw [zonk_arrow]
    exact List.mem_map_of_mem (f := s.zonk) hu
  | _ => cases hu

theorem Acyclic.ends_of_parts {β : Type} {step : (Ty → β) → Ty → β} (h : s.Acyclic) (f : Ty → β)
    (hstep : ∀ t (deeper : Ty → β), (∀ u ∈ (s.resolve t).parts, deeper u = f u) →
      step deeper t = f t) (t : Ty) :
    Ends step t (f t) := by
  induction hsize : sizeOf (s.zonk t) using Nat.strong_induction_on generalizing t with
  | _ n ih =>
    refine .of_calls f (s.resolve t).parts (fun u hu => ?_) (hstep t)
    have hlt := Ty.sizeOf_lt_of_mem_parts (s.zonk_mem_parts hu)
    rw [h.zonk_resolve, hsize] at hlt
    exact ih _ hlt u rfl

theorem Acyclic.ends_zonk (h : s.Acyclic) (t : Ty) : Ends s.zonkStep t (s.zonk t) := by
  refine h.ends_of_parts s.zonk (fun t deeper hdeeper => ?_) t
  rw [← h.zonk_resolve t, zonkStep]
  cases hr : s.resolve t with
  | const c args =>
    rw [hr] at hdeeper
    rw [zonk_const]
    exact congrArg (Ty.const c) (List.map_congr_left hdeeper)
  | tuple elems =>
    rw [hr] at hdeeper
    rw [zonk_tuple]
    exact congrArg Ty.tuple (List.map_congr_left hdeeper)
  | arrow d c =>
    rw [hr] at hdeeper
    have hd := hdeeper d (by simp [Ty.parts])
    have hc := hdeeper c (by simp [Ty.parts])
    simp only [zonk_arrow, hd, hc]
  | metavar i =>
    have hopen := h.isSolved_resolve t
    rw [hr, isSolved_metavar_eq_false_iff] at hopen
    exact (zonk_metavar_of_open hopen).symm
  | var x => exact (zonk_var s x).symm
  | prim p => exact (zonk_prim s p).symm

theorem any_eq_any_zonk {deeper : Ty → Bool} {ts : List Ty}
    (h : ∀ t ∈ ts, deeper t = s.occurs i t) :
    ts.any deeper = (ts.map s.zonk).any (·.mentionsMetavar i) := by
  induction ts with
  | nil => rfl
  | cons t ts ih =>
    obtain ⟨ht, hts⟩ := List.forall_mem_cons.1 h
    rw [List.any_cons, List.map_cons, List.any_cons, ht, ih hts]
    rfl

theorem Acyclic.ends_occurs (h : s.Acyclic) (i : UInt32) (t : Ty) :
    Ends (s.occursStep i) t (s.occurs i t) := by
  refine h.ends_of_parts (s.occurs i) (fun t deeper hdeeper => ?_) t
  rw [occurs, ← h.zonk_resolve t, occursStep]
  cases hr : s.resolve t with
  | const c args =>
    rw [hr] at hdeeper
    rw [zonk_const, Ty.mentionsMetavar_const]
    exact any_eq_any_zonk hdeeper
  | tuple elems =>
    rw [hr] at hdeeper
    rw [zonk_tuple, Ty.mentionsMetavar_tuple]
    exact any_eq_any_zonk hdeeper
  | arrow d c =>
    rw [hr] at hdeeper
    have hd := hdeeper d (by simp [Ty.parts])
    have hc := hdeeper c (by simp [Ty.parts])
    simp only [zonk_arrow, Ty.mentionsMetavar_arrow, hd, hc, occurs]
  | metavar j =>
    have hopen := h.isSolved_resolve t
    rw [hr, isSolved_metavar_eq_false_iff] at hopen
    rw [zonk_metavar_of_open hopen, Ty.mentionsMetavar_metavar]
  | var x => rw [zonk_var, Ty.mentionsMetavar_var]
  | prim p => rw [zonk_prim, Ty.mentionsMetavar_prim]

theorem Acyclic.solution?_of_mentions_zonk (h : s.Acyclic)
    (hi : (s.zonk t).mentionsMetavar i = true) : s.solution? i = none :=
  (h.mentionsMetavar_zonk.1 hi).isOpen

theorem Acyclic.zonk_zonk (h : s.Acyclic) (t : Ty) : s.zonk (s.zonk t) = s.zonk t := by
  rw [zonk_eq_fill]
  exact Ty.bind_eq_self (fun _ _ => rfl) fun i hi =>
    zonk_metavar_of_open (h.solution?_of_mentions_zonk hi)

theorem resolveWithin_of_not_isSolved (h : s.isSolved t = false) (n : Nat) :
    s.resolveWithin n t = t := by
  cases n with
  | zero => rfl
  | succ n =>
    cases t with
    | metavar i =>
      rw [resolveWithin, isSolved_metavar_eq_false_iff.1 h]
    | _ => rfl

theorem resolve_of_not_isSolved (h : s.isSolved t = false) : s.resolve t = t :=
  resolveWithin_of_not_isSolved h s.size

theorem Acyclic.resolve_resolve (h : s.Acyclic) (t : Ty) : s.resolve (s.resolve t) = s.resolve t :=
  resolve_of_not_isSolved (h.isSolved_resolve t)

theorem Mentions.of_extends (h : s.Mentions i j) (hs : s.Extends s') : s'.Mentions i j := by
  obtain ⟨t, ht, hj⟩ := h
  exact ⟨t, hs.kept i t ht, hj⟩

open Relation (TransGen)

theorem leads_of_mentions_resolveWithin {n : Nat}
    (h : (s.resolveWithin n t).mentionsMetavar j = true) :
    t.mentionsMetavar j = true ∨ ∃ i, t.mentionsMetavar i = true ∧ TransGen s.Mentions i j := by
  induction n generalizing t with
  | zero => exact .inl h
  | succ n ih =>
    cases t with
    | metavar i =>
      rw [resolveWithin] at h
      cases hs : s.solution? i with
      | none =>
        rw [hs] at h
        exact .inl h
      | some u =>
        rw [hs] at h
        refine .inr ⟨i, by simp, ?_⟩
        rcases ih h with hu | ⟨k, hk, hkj⟩
        · exact .single ⟨u, hs, hu⟩
        · exact .head ⟨u, hs, hk⟩ hkj
    | _ => exact .inl h

theorem leads_of_mentions_resolve (hi : s.solution? i = some u)
    (h : (s.resolve (.metavar i)).mentionsMetavar j = true) :
    TransGen s.Mentions i j := by
  have hlt := toNat_lt_of_solution? hi
  unfold resolve at h
  obtain ⟨n, hn⟩ := Nat.exists_eq_succ_of_ne_zero (Nat.ne_zero_of_lt hlt)
  rw [hn, Nat.succ_eq_add_one, resolveWithin, hi] at h
  rcases leads_of_mentions_resolveWithin h with hu | ⟨k, hk, hkj⟩
  · exact .single ⟨u, hi, hu⟩
  · exact .head ⟨u, hi, hk⟩ hkj

/-- Solved metavariables that were passed on the way to `t`. They all lead to what `t` mentions. -/
structure Passed (s : Solutions) (path : Finset UInt32) (t : Ty) : Prop where
  lt : ∀ i ∈ path, i.toNat < s.size
  leads : ∀ i ∈ path, ∀ j, t.mentionsMetavar j = true → TransGen s.Mentions i j

variable {path : Finset UInt32}

theorem passed_empty (s : Solutions) (t : Ty) : s.Passed ∅ t := ⟨nofun, nofun⟩

theorem Passed.of_extends (h : s.Passed path t) (hs : s.Extends s') : s'.Passed path t where
  lt i hi := hs.size ▸ h.lt i hi
  leads i hi j hj := by
    have hle : s.Mentions ≤ s'.Mentions := fun _ _ hm => hm.of_extends hs
    exact TransGen.mono hle i j (h.leads i hi j hj)

theorem Passed.part (h : s.Passed path t) (hu : u ∈ t.parts) : s.Passed path u where
  lt := h.lt
  leads i hi j hj := h.leads i hi j (by
    cases t with
    | const c args => exact Ty.mentionsMetavar_const c args ▸ List.any_eq_true.2 ⟨u, hu, hj⟩
    | tuple elems => exact Ty.mentionsMetavar_tuple elems ▸ List.any_eq_true.2 ⟨u, hu, hj⟩
    | arrow d c =>
      rw [Ty.mentionsMetavar_arrow, Bool.or_eq_true]
      rcases List.mem_pair.1 hu with rfl | rfl
      · exact .inl hj
      · exact .inr hj
    | _ => cases hu)

theorem Passed.card_le (h : s.Passed path t) : path.card ≤ s.size := by
  have hsub : path.image UInt32.toNat ⊆ Finset.range s.size := by
    intro n hn
    obtain ⟨i, hi, rfl⟩ := Finset.mem_image.1 hn
    exact Finset.mem_range.2 (h.lt i hi)
  have hcard := Finset.card_le_card hsub
  rw [Finset.card_image_of_injective path fun i j => UInt32.toNat_inj.1, Finset.card_range] at hcard
  exact hcard

theorem Acyclic.not_leads_self (h : s.Acyclic) (i : UInt32) : ¬TransGen s.Mentions i i := by
  have hwf : WellFounded fun j i => TransGen s.Mentions i j := by
    refine Subrelation.wf (fun {j i} hij => ?_) h.wellFounded.transGen
    exact Relation.transGen_swap.1 hij
  exact fun hi => hwf.asymmetric i i hi hi

theorem Passed.resolve (h : s.Passed path t) (hs : s.Acyclic) :
    ∃ path', s.Passed path' (s.resolve t) ∧ path.card + (s.isSolved t).toNat ≤ path'.card := by
  classical
  cases hsolved : s.isSolved t with
  | false =>
    rw [resolve_of_not_isSolved hsolved]
    exact ⟨path, h, Nat.le_refl _⟩
  | true =>
    cases t with
    | metavar i =>
      obtain ⟨u, hu⟩ := Option.isSome_iff_exists.1 hsolved
      have hnew : i ∉ path := fun hi => hs.not_leads_self i (h.leads i hi i (by simp))
      refine ⟨insert i path, ⟨fun k hk => ?_, fun k hk j hj => ?_⟩,
        Nat.le_of_eq (Finset.card_insert_of_notMem hnew).symm⟩
      · rcases Finset.mem_insert.1 hk with rfl | hk
        · exact toNat_lt_of_solution? hu
        · exact h.lt k hk
      · have hij := leads_of_mentions_resolve hu hj
        rcases Finset.mem_insert.1 hk with rfl | hk
        · exact hij
        · exact (h.leads k hk i (by simp)).trans hij
    | _ => cases hsolved

def unifyAt (n : Nat) (x : Ty × Ty × Solutions) : Bool × Solutions := unifyWithin n x.1 x.2.1 x.2.2

theorem unifyAt_keeps (n : Nat) (a b : Ty) (hs : s.Acyclic) :
    s.Extends (unifyAt n (a, b, s)).2 ∧ (unifyAt n (a, b, s)).2.Acyclic := by
  have hp : Hereditary fun _ => True :=
    ⟨fun _ _ _ => trivial, fun _ => ⟨trivial, trivial⟩, fun _ _ _ => trivial⟩
  have h : Unified (fun _ => True) s a b (unifyWithin n a b s) :=
    unified_unifyWithin hp n hs (fun _ _ _ => trivial) trivial trivial
  exact ⟨h.ext, h.acyclic⟩

def unifyCalls (n : Nat) : List Ty → List Ty → Solutions → List (Ty × Ty × Solutions)
  | a :: as, b :: bs, s => (a, b, s) :: unifyCalls n as bs (unifyAt n (a, b, s)).2
  | _, _, _ => []

variable {n : Nat} {as bs : List Ty} {deeper : Ty × Ty × Solutions → Bool × Solutions}

theorem unifyEach_eq (h : ∀ x ∈ unifyCalls (n + 1) as bs s, deeper x = unifyAt (n + 1) x) :
    unifyEach deeper as bs s = unifyAllWith (unifyWithin n) as bs s := by
  induction as generalizing bs s with
  | nil => rw [unifyAllWith.eq_def, unifyEach.eq_def]
  | cons a as ih =>
    cases bs with
    | nil => rw [unifyAllWith.eq_def, unifyEach.eq_def]
    | cons b bs =>
      obtain ⟨hab, hrest⟩ := List.forall_mem_cons.1 h
      rw [unifyAllWith, unifyEach, hab]
      rcases hr : unifyAt (n + 1) (a, b, s) with ⟨r, s'⟩
      rw [hr] at hrest
      have hhead : unifyWith (unifyWithin n) a b s = (r, s') := hr
      rw [hhead]
      cases r with
      | false => rfl
      | true => exact ih hrest

def EndBelow (n : Nat) (s : Solutions) (as bs : List Ty) : Prop :=
  ∀ a ∈ as, ∀ b ∈ bs, ∀ s', s.Extends s' → s'.Acyclic →
    Ends unifyStep (a, b, s') (unifyAt n (a, b, s'))

theorem EndBelow.calls (h : EndBelow n s as bs) (hs : s.Acyclic) :
    ∀ x ∈ unifyCalls n as bs s, Ends unifyStep x (unifyAt n x) := by
  induction as generalizing bs s with
  | nil => nofun
  | cons a as ih =>
    cases bs with
    | nil => nofun
    | cons b bs =>
      obtain ⟨hext, hs'⟩ := unifyAt_keeps n a b hs
      refine List.forall_mem_cons.2 ⟨h a (by simp) b (by simp) s (.refl s) hs,
        ih (fun a' ha' b' hb' s'' hext' => ?_) hs'⟩
      exact h a' (List.mem_cons_of_mem a ha') b' (List.mem_cons_of_mem b hb') s'' (hext.trans hext')

theorem unifyStep_arrow {d c d' c' : Ty} (hd : deeper (d, d', s) = unifyAt (n + 1) (d, d', s))
    (hc : deeper (c, c', (unifyAt (n + 1) (d, d', s)).2) =
      unifyAt (n + 1) (c, c', (unifyAt (n + 1) (d, d', s)).2)) :
    (match deeper (d, d', s) with | (true, s) => deeper (c, c', s) | (false, s) => (false, s)) =
      match unifyWith (unifyWithin n) d d' s with
      | (true, s) => unifyWith (unifyWithin n) c c' s
      | (false, s) => (false, s) := by
  rw [hd]
  rcases hr : unifyAt (n + 1) (d, d', s) with ⟨r, s'⟩
  have hhead : unifyWith (unifyWithin n) d d' s = (r, s') := hr
  rw [hr] at hc
  rw [hhead]
  cases r with
  | false => rfl
  | true => exact hc

theorem EndBelow.ends (h : EndBelow (n + 1) s a.parts b.parts) (hs : s.Acyclic)
    (hopen : (s.isSolved a || s.isSolved b) = false) :
    Ends unifyStep (a, b, s) (unifyAt (n + 1) (a, b, s)) := by
  obtain ⟨ha, hb⟩ := Bool.or_eq_false_iff.1 hopen
  refine .of_calls (unifyAt (n + 1)) _ (h.calls hs) fun deeper hdeeper => ?_
  unfold unifyAt unifyWithin
  rw [unifyStep, resolve_of_not_isSolved ha, resolve_of_not_isSolved hb, unifyWith.eq_def]
  simp only [hopen, Bool.false_eq_true, if_false]
  cases a with
  | const c as =>
    cases b with
    | const d bs =>
      have heach : unifyEach deeper as bs s = unifyAllWith (unifyWithin n) as bs s :=
        unifyEach_eq hdeeper
      simp only [heach]
    | _ => rfl
  | tuple as =>
    cases b with
    | tuple bs =>
      have heach : unifyEach deeper as bs s = unifyAllWith (unifyWithin n) as bs s :=
        unifyEach_eq hdeeper
      simp only [heach]
    | _ => rfl
  | arrow d c =>
    cases b with
    | arrow d' c' =>
      exact unifyStep_arrow (hdeeper _ (by simp [unifyCalls, Ty.parts]))
        (hdeeper _ (by simp [unifyCalls, Ty.parts]))
    | _ => rfl
  | _ => cases b <;> rfl

theorem ends_behind (hs : s.Acyclic) (hsolved : (s.isSolved a || s.isSolved b) = true)
    (h : Ends unifyStep (s.resolve a, s.resolve b, s) (unifyAt n (s.resolve a, s.resolve b, s))) :
    Ends unifyStep (a, b, s) (unifyAt (n + 1) (a, b, s)) := by
  have heq : unifyAt (n + 1) (a, b, s) = unifyAt n (s.resolve a, s.resolve b, s) := by
    unfold unifyAt
    rw [unifyWithin, unifyWith.eq_def, if_pos hsolved]
  rw [heq]
  refine h.congr fun deeper => ?_
  rw [unifyStep, unifyStep, hs.resolve_resolve, hs.resolve_resolve]

/-- Each layer of fuel is for a metavariable more on one of the two ways. There are no more of
them than metavariables in all, so that the fuel lasts. -/
theorem ends_unifyAt {left right : Finset UInt32} (hs : s.Acyclic) (ha : s.Passed left a)
    (hb : s.Passed right b)
    (hfuel : 2 * s.size < n + left.card + right.card) :
    Ends unifyStep (a, b, s) (unifyAt n (a, b, s)) := by
  induction n generalizing a b s left right with
  | zero =>
    have hleft := ha.card_le
    have hright := hb.card_le
    omega
  | succ n ihn =>
    induction hsize : sizeOf a using Nat.strong_induction_on generalizing a b s with
    | _ k ihk =>
      cases hsolved : s.isSolved a || s.isSolved b with
      | true =>
        obtain ⟨left', ha', hleft⟩ := ha.resolve hs
        obtain ⟨right', hb', hright⟩ := hb.resolve hs
        refine ends_behind hs hsolved (ihn hs ha' hb' ?_)
        rcases Bool.or_eq_true _ _ |>.mp hsolved with h | h
        · rw [h, Bool.toNat_true] at hleft
          omega
        · rw [h, Bool.toNat_true] at hright
          omega
      | false =>
        refine EndBelow.ends (fun u hu v hv s' hext hs' => ?_) hs hsolved
        have hlt : sizeOf u < k := hsize ▸ Ty.sizeOf_lt_of_mem_parts hu
        refine ihk _ hlt hs' ((ha.part hu).of_extends hext) ((hb.part hv).of_extends hext) ?_ rfl
        rw [hext.size]
        exact hfuel

theorem Acyclic.ends_unify (h : s.Acyclic) (a b : Ty) : Ends unifyStep (a, b, s) (s.unify a b) := by
  refine ends_unifyAt (n := 2 * s.size + 1) h (passed_empty s a) (passed_empty s b) ?_
  rw [Finset.card_empty]
  omega

end Solutions

namespace Checker

/-- In every state that operations of the checker lead to, also ones that fail and ones that are
asked about metavariables that do not exist, no chain of solutions goes on for ever. So the walks
along the solutions end without a bound, and come to what the checker's own come to; zonking
twice is zonking once, and what is zonked mentions no solved metavariable. -/
theorem walks_end {ctx : Context} {c : Checker} (hc : Reachable ctx c) :
    (WellFounded fun j i => c.solutions.Mentions i j) ∧
      (∀ t, Ends c.solutions.resolveStep t (c.solutions.resolve t)) ∧
      (∀ t, Ends c.solutions.zonkStep t (c.solutions.zonk t)) ∧
      (∀ i t, Ends (c.solutions.occursStep i) t (c.solutions.occurs i t)) ∧
      (∀ a b, Ends Solutions.unifyStep (a, b, c.solutions) (c.solutions.unify a b)) ∧
      (∀ t, c.solutions.zonk (c.solutions.zonk t) = c.solutions.zonk t) ∧
      ∀ t i, (c.solutions.zonk t).mentionsMetavar i = true → c.solutions.solution? i = none := by
  have h := hc.acyclic
  exact ⟨h.wellFounded, h.ends_resolve, h.ends_zonk, h.ends_occurs, h.ends_unify, h.zonk_zonk,
    fun _ _ => h.solution?_of_mentions_zonk⟩

def knotted : Checker :=
  let c := (fresh.apply (fresh.apply .initial).2).2
  let c := ((unify (.metavar 0) (.tuple [.metavar 1])).apply c).2
  let c := ((unify (.metavar 1) (.tuple [.metavar 0])).apply c).2
  ((unify (.metavar 7) (.prim .int)).apply c).2

theorem reachable_knotted : Reachable .empty knotted :=
  ((Reachable.initial.fresh.fresh.unify _ _).unify _ _).unify _ _

theorem knotted_walks_end :
    Reachable .empty knotted ∧ knotted.solutions.solution? 0 = some (.tuple [.metavar 1]) ∧
      (WellFounded fun j i => knotted.solutions.Mentions i j) ∧
      Ends Solutions.unifyStep (.metavar 1, .tuple [.metavar 0], knotted.solutions)
        (false, knotted.solutions) :=
  have h := walks_end reachable_knotted
  ⟨reachable_knotted, rfl, h.1, h.2.2.2.2.1 (.metavar 1) (.tuple [.metavar 0])⟩

end Checker

end ClosedTypes
