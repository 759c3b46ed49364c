import ClosedTypes.Proofs.Term.Skeleton
import ClosedTypes.Reduction.Skeleton
/-!
Reduction of skeletons goes on in their parts, and under a replacement of variables that puts no
literals in.
-/

namespace ClosedTypes

namespace One

variable {α β : Type} {r : α → α → Prop} {a : α} {as bs cs : List α}

theorem length_eq (h : One r as bs) : as.length = bs.length := by
  induction h with
  | head _ => rfl
  | tail _ ih => rw [List.length_cons, List.length_cons, ih]

theorem map {q : β → β → Prop} {f : α → β} (h : One r as bs)
    (hr : ∀ a ∈ as, ∀ b, r a b → q (f a) (f b)) :
    One q (as.map f) (bs.map f) := by
  induction h with
  | head h => exact .head (hr _ List.mem_cons_self _ h)
  | tail _ ih => exact .tail (ih fun a ha => hr a (List.mem_cons_of_mem _ ha))

theorem append_left (cs : List α) (h : One r as bs) : One r (cs ++ as) (cs ++ bs) := by
  induction cs with
  | nil => exact h
  | cons c cs ih => exact .tail ih

theorem append_right (cs : List α) (h : One r as bs) : One r (as ++ cs) (bs ++ cs) := by
  induction h with
  | head h => exact .head h
  | tail _ ih => exact .tail ih

theorem exists_split (h : One r as bs) :
    ∃ before a b after, as = before ++ a :: after ∧ bs = before ++ b :: after ∧ r a b := by
  induction h with
  | @head a b as h => exact ⟨[], a, b, as, rfl, rfl, h⟩
  | @tail c as bs _ ih =>
    obtain ⟨before, a, b, after, rfl, rfl, h⟩ := ih
    exact ⟨c :: before, a, b, after, rfl, rfl, h⟩

theorem of_split {b : α} (before after : List α) (h : r a b) :
    One r (before ++ a :: after) (before ++ b :: after) :=
  append_left before (.head h)

theorem getElem? (h : One r as bs) {i : Nat} (hi : as[i]? = some a) :
    ∃ b, bs[i]? = some b ∧ (a = b ∨ r a b) := by
  induction h generalizing i with
  | head h =>
    cases i with
    | zero =>
      cases hi
      exact ⟨_, rfl, .inr h⟩
    | succ i => exact ⟨a, hi, .inl rfl⟩
  | tail _ ih =>
    cases i with
    | zero => exact ⟨a, hi, .inl rfl⟩
    | succ i => exact ih hi

theorem forall₂ {q : α → α → Prop} (h : One r as bs) (hrefl : ∀ a, q a a)
    (hr : ∀ a b, r a b → q a b) : List.Forall₂ q as bs := by
  induction h with
  | head h => exact .cons (hr _ _ h) (List.forall₂_same.2 fun a _ => hrefl a)
  | tail _ ih => exact .cons (hrefl _) ih

theorem of_pair {b : α} (h : One r [a, b] cs) :
    (∃ a', r a a' ∧ cs = [a', b]) ∨ ∃ b', r b b' ∧ cs = [a, b'] := by
  cases h with
  | head h => exact .inl ⟨_, h, rfl⟩
  | tail h =>
    cases h with
    | head h => exact .inr ⟨_, h, rfl⟩
    | tail h => cases h

theorem peak {j : α → α → Prop} (h : One r as bs) (h' : One r as cs)
    (hr : ∀ a ∈ as, ∀ b c, r a b → r a c → j b c) :
    One j bs cs ∨ ∃ ds, One r bs ds ∧ One r cs ds := by
  induction h generalizing cs with
  | @head a b as h =>
    cases h' with
    | head h' => exact .inl (.head (hr a List.mem_cons_self _ _ h h'))
    | tail h' => exact .inr ⟨_, .tail h', .head h⟩
  | @tail a as bs h ih =>
    cases h' with
    | head h' => exact .inr ⟨_, .head h', .tail h⟩
    | tail h' =>
      rcases ih h' fun a ha => hr a (List.mem_cons_of_mem _ ha) with hj | ⟨ds, hb, hc⟩
      · exact .inl (.tail hj)
      · exact .inr ⟨_, .tail hb, .tail hc⟩

end One

namespace Skeleton

open Relation

variable {rules : Rules} {h : Head} {op : Operator} {t u v a b c : Skeleton}
  {ts us args : List Skeleton} {x y : Int64}
  {θ θ' : Variable → Skeleton}

theorem Reaches.body (h : Reaches rules b c) : Reaches rules (lam b) (lam c) :=
  h.lift lam fun _ _ => .body

theorem Reaches.part (h' : One (Reaches rules) ts us) : Reaches rules (node h ts) (node h us) := by
  obtain ⟨before, a, b, after, rfl, rfl, hab⟩ := h'.exists_split
  exact hab.lift (fun t => node h (before ++ t :: after)) fun _ _ hstep =>
    .part (.of_split before after hstep)

theorem Reaches.parts (before : List Skeleton) (h' : List.Forall₂ (Reaches rules) ts us) :
    Reaches rules (node h (before ++ ts)) (node h (before ++ us)) := by
  induction h' generalizing before with
  | nil => exact .refl
  | @cons t u ts us ht _ ih =>
    have hrest := ih (before ++ [u])
    rw [List.append_assoc, List.append_assoc] at hrest
    exact (Reaches.part (.of_split before ts ht)).trans hrest

theorem Joins.of_reaches (h : Reaches rules t u) : Joins rules t u := ⟨u, h, .refl⟩

theorem Joins.of_contracts (hu : Reaches rules u t) (hv : Contracts rules v t) : Joins rules u v :=
  ⟨t, hu, .single (.here hv)⟩

theorem Joins.body (h : Joins rules b c) : Joins rules (lam b) (lam c) := by
  obtain ⟨w, hb, hc⟩ := h
  exact ⟨lam w, hb.body, hc.body⟩

theorem Joins.part (h' : One (Joins rules) ts us) : Joins rules (node h ts) (node h us) := by
  obtain ⟨before, a, b, after, rfl, rfl, w, ha, hb⟩ := h'.exists_split
  exact ⟨node h (before ++ w :: after), .part (.of_split before after ha),
    .part (.of_split before after hb)⟩

theorem Joins.symm (h : Joins rules t u) : Joins rules u t := by
  obtain ⟨w, ht, hu⟩ := h
  exact ⟨w, hu, ht⟩

theorem Joins.of_left (h : Reaches rules t u) (h' : Joins rules u v) : Joins rules t v := by
  obtain ⟨w, hu, hv⟩ := h'
  exact ⟨w, h.trans hu, hv⟩

theorem Joins.of_right (h : Reaches rules t u) (h' : Joins rules v u) : Joins rules v t :=
  (Joins.of_left h h'.symm).symm

theorem Joins.of_eq (h : t = u) : Joins rules t u := h ▸ .of_reaches .refl

theorem not_reduces_var {v : Variable} : ¬Reduces rules (var v) u := by
  intro h
  cases h with
  | here h => cases h

theorem not_reduces_lit {l : Literal} : ¬Reduces rules (node (.lit l) []) u := by
  intro h
  cases h with
  | here h => cases h
  | part h => cases h

theorem moves_left {l : Literal} (h : One (Reduces rules) [a, node (.lit l) []] us) :
    ∃ a', Reduces rules a a' ∧ us = [a', node (.lit l) []] :=
  h.of_pair.resolve_right fun ⟨_, h, _⟩ => not_reduces_lit h

theorem moves_right {l : Literal} (h : One (Reduces rules) [node (.lit l) [], b] us) :
    ∃ b', Reduces rules b b' ∧ us = [node (.lit l) [], b'] :=
  h.of_pair.resolve_left fun ⟨_, h, _⟩ => not_reduces_lit h

theorem not_moves_lits {l k : Literal} :
    ¬One (Reduces rules) [node (.lit l) [], node (.lit k) []] us := fun h => by
  obtain ⟨_, h, -⟩ := moves_left h
  exact not_reduces_lit h

theorem exists_of_reduces_lam (h : Reduces rules (lam b) u) :
    ∃ c, Reduces rules b c ∧ u = lam c := by
  cases h with
  | here h => cases h
  | body h => exact ⟨_, h, rfl⟩

theorem Reduces.applyAll {f g : Skeleton} (h : Reduces rules f g) :
    Reduces rules (f.applyAll ts) (g.applyAll ts) := by
  induction ts generalizing f g with
  | nil => exact h
  | cons t ts ih => exact ih (.part (.head h))

theorem Reaches.applyAll {f g : Skeleton} (h : Reaches rules f g) :
    Reaches rules (f.applyAll ts) (g.applyAll ts) :=
  h.lift (Skeleton.applyAll · ts) fun _ _ => Reduces.applyAll

theorem reduces_applyAll {f : Skeleton} (h : One (Reduces rules) ts us) :
    Reduces rules (f.applyAll ts) (f.applyAll us) := by
  induction h generalizing f with
  | head h => exact .applyAll (.part (.tail (.head h)))
  | tail _ ih => exact ih

theorem Reaches.fold (h : Folds op args t) : Reaches rules (prim op args) t :=
  .single (.here (.fold h))

theorem Reaches.left (h : Reduces rules a b) : Reaches rules (prim op [a, c]) (prim op [b, c]) :=
  .single (.part (.head h))

theorem Reaches.right (h : Reduces rules b c) : Reaches rules (prim op [a, b]) (prim op [a, c]) :=
  .single (.part (.tail (.head h)))

theorem isSome_find?_zip {α : Type} {xs : List Name} {as : List α} {x : Name}
    (hlen : xs.length = as.length) (hx : x ∈ xs) :
    ∃ a, (Index.ofList (xs.zip as)).find? x = some a := by
  refine Option.ne_none_iff_exists'.1 fun hnone => Index.find?_ofList_eq_none_iff.1 hnone ?_
  rwa [List.map_fst_zip (Nat.le_of_eq hlen)]

theorem exists_pair {α β : Type} {f : α → β} {as : List α} {b c : β} (h : as.map f = [b, c]) :
    ∃ a a', as = [a, a'] ∧ f a = b ∧ f a' = c := by
  match as, h with
  | [a, a'], h =>
    cases h
    exact ⟨a, a', rfl, rfl, rfl⟩

theorem find?_ofList_zip_map {α β : Type} {xs : List Name} {as : List α} {x : Name} (f : α → β) :
    (Index.ofList (xs.zip (as.map f))).find? x = ((Index.ofList (xs.zip as)).find? x).map f := by
  rw [Index.find?_ofList, Index.find?_ofList, List.zip_map_right, ← List.map_reverse]
  generalize (xs.zip as).reverse = l
  induction l with
  | nil => rfl
  | cons p l ih =>
    obtain ⟨y, a⟩ := p
    simp only [List.map_cons, Prod.map, Index.look, id_eq]
    split <;> simp [ih]

theorem find?_zip_rel {α : Type} {r : α → α → Prop} (xs : List Name) {as bs : List α}
    (h : List.Forall₂ r as bs) (x : Name) :
    Option.Rel r ((Index.ofList (xs.zip as)).find? x) ((Index.ofList (xs.zip bs)).find? x) := by
  have hzip : List.Forall₂ (fun p q : Name × α => p.1 = q.1 ∧ r p.2 q.2) (xs.zip as)
      (xs.zip bs) := by
    induction h generalizing xs with
    | nil => simp
    | cons h _ ih =>
      cases xs with
      | nil => exact .nil
      | cons y xs => exact .cons ⟨rfl, h⟩ (ih xs)
  rw [Index.find?_ofList, Index.find?_ofList]
  have hlook (l l' : List (Name × α))
      (h : List.Forall₂ (fun p q : Name × α => p.1 = q.1 ∧ r p.2 q.2) l l') :
      Option.Rel r (Index.look x l) (Index.look x l') := by
    induction h with
    | nil => exact .none
    | @cons p q _ _ h _ ih =>
      obtain ⟨y, a⟩ := p
      obtain ⟨z, b⟩ := q
      obtain ⟨rfl, h⟩ := h
      unfold Index.look
      split
      · exact .some h
      · exact ih
  exact hlook _ _ (List.rel_reverse hzip)

theorem replace_assigning {d : Equation} (hfree : ∀ x ∈ d.rhs.free, x ∈ d.binders)
    (hlen : d.binders.length = args.length) (θ : Variable → Skeleton) :
    ((d.rhs.skeleton []).replace (assigning d.binders args)).replace θ =
      (d.rhs.skeleton []).replace (assigning d.binders (args.map (Skeleton.replace θ))) := by
  rw [replace_replace]
  refine Term.replace_skeleton_congr fun x hx => ?_
  obtain ⟨a, ha⟩ := isSome_find?_zip hlen (hfree x hx)
  show (assigning d.binders args (.free x)).replace θ = assigning d.binders _ (.free x)
  rw [assigning, assigning, find?_ofList_zip_map, ha]
  rfl

def Spares (θ : Variable → Skeleton) : Prop := ∀ v l, θ v ≠ node (.lit l) []

theorem Spares.eq_lit_of_replace {l : Literal} (hθ : Spares θ)
    (h : t.replace θ = node (.lit l) []) : t = node (.lit l) [] := by
  cases t with
  | var v => exact absurd h (hθ v l)
  | lam b => cases h
  | node h' ts =>
    rw [Skeleton.replace, replaceAll_eq_map] at h
    simpa using h

theorem Spares.replace_ne {l : Literal} (hθ : Spares θ) (ht : t ≠ node (.lit l) []) :
    t.replace θ ≠ node (.lit l) [] :=
  fun h => ht (hθ.eq_lit_of_replace h)

theorem spares_var (ρ : Variable → Variable) : Spares fun v => var (ρ v) := fun _ _ => nofun

theorem Spares.under (hθ : Spares θ) : Spares (under θ) := by
  intro v l
  obtain rfl | ⟨w, rfl⟩ := v.eq_bound_or_up
  · exact nofun
  · rw [under_up, rename_eq_replace]
    exact (spares_var _).replace_ne (hθ w l)

theorem Folds.replace_of_spares (h : Folds op args t) (hθ : Spares θ) :
    Folds op (args.map (Skeleton.replace θ)) (t.replace θ) := by
  cases h with
  | add => exact .add
  | addSwap hb => exact .addSwap fun n => hθ.replace_ne (hb n)
  | addZero => exact .addZero
  | addMerge => exact .addMerge
  | sub => exact .sub
  | subLiteral ha => exact .subLiteral fun n => hθ.replace_ne (ha n)
  | subSelf => exact .subSelf
  | mul => exact .mul
  | lt => exact .lt
  | eq => exact .eq
  | eqSelf => exact .eqSelf
  | eqSwap hb => exact .eqSwap fun k => hθ.replace_ne (hb k)
  | eqShift => exact .eqShift
  | falseAnd => exact .falseAnd
  | andFalse => exact .andFalse
  | trueAnd => exact .trueAnd
  | andTrue => exact .andTrue
  | trueOr => exact .trueOr
  | orTrue => exact .orTrue
  | falseOr => exact .falseOr
  | orFalse => exact .orFalse
  | not => exact .not

section

variable (hrules : rules.Closed)

include hrules

theorem Contracts.replace_of_spares (h : Contracts rules t u) (hθ : Spares θ) :
    Contracts rules (t.replace θ) (u.replace θ) := by
  cases h with
  | beta =>
    rw [instantiate_replace]
    exact .beta
  | erasure => exact .erasure
  | @projection elems i t hi =>
    show Contracts rules (node (.proj i) [node .tuple (replaceAll θ elems)]) _
    refine .projection ?_
    rw [replaceAll_eq_map, List.getElem?_map, hi, Option.map_some]
  | @branch c t e => cases c <;> exact .branch
  | fold h =>
    rw [replace_prim]
    exact .fold (h.replace_of_spares hθ)
  | @equation e c fields args d he hc hd hlen =>
    rw [replace_assigning (hrules.rhs hd) hlen, List.map_append]
    show Contracts rules
      (node (.elim e) (node (.ctor c) (replaceAll θ fields) :: replaceAll θ args)) _
    rw [replaceAll_eq_map, replaceAll_eq_map]
    exact .equation he hc hd (by simpa using hlen)
  | @constructor c args body hbody =>
    rw [replace_applyAll, Term.skeleton_of_closed (hrules.body hbody)]
    show Contracts rules (node (.ctor c) (replaceAll θ args)) _
    rw [replaceAll_eq_map]
    exact .constructor hbody
  | @eliminator e s args body hbody =>
    rw [replace_applyAll, Term.skeleton_of_closed (hrules.body hbody), List.map_cons]
    show Contracts rules (node (.elim e) (s.replace θ :: replaceAll θ args)) _
    rw [replaceAll_eq_map]
    exact .eliminator hbody

/-- Literals that are put in may make a fold another one; without them the same rules apply after
a replacement. -/
theorem Reduces.replace_of_spares (h : Reduces rules t u) (hθ : Spares θ) :
    Reduces rules (t.replace θ) (u.replace θ) := by
  induction t generalizing u θ with
  | var v => exact absurd h not_reduces_var
  | lam b ih =>
    obtain ⟨c, hc, rfl⟩ := exists_of_reduces_lam h
    exact .body (ih hc hθ.under)
  | node h' ts ih =>
    cases h with
    | here h => exact .here (h.replace_of_spares hrules hθ)
    | part h =>
      rw [Skeleton.replace, Skeleton.replace, replaceAll_eq_map, replaceAll_eq_map]
      exact .part (h.map fun t ht u hu => ih t ht hu hθ)

theorem Reaches.rename (h : Reaches rules t u) (ρ : Variable → Variable) :
    Reaches rules (t.rename ρ) (u.rename ρ) := by
  rw [rename_eq_replace, rename_eq_replace]
  exact h.lift (Skeleton.replace _) fun _ _ hstep => hstep.replace_of_spares hrules (spares_var ρ)

theorem reaches_replace (t : Skeleton) (hθ : ∀ v, Reaches rules (θ v) (θ' v)) :
    Reaches rules (t.replace θ) (t.replace θ') := by
  induction t generalizing θ θ' with
  | var v => exact hθ v
  | lam b ih =>
    refine (ih fun v => ?_).body
    -- what is put in below the binder is renamed, and goes on reducing
    obtain rfl | ⟨w, rfl⟩ := v.eq_bound_or_up
    · exact .refl
    · rw [under_up, under_up]
      exact (hθ w).rename hrules _
  | node h ts ih =>
    rw [replace, replace, replaceAll_eq_map, replaceAll_eq_map]
    refine .parts [] ?_
    rw [List.forall₂_map_left_iff, List.forall₂_map_right_iff, List.forall₂_same]
    exact fun t ht => ih t ht hθ

end

end Skeleton

end ClosedTypes
