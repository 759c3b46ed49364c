import ClosedTypes.Proofs.Reduction.Skeleton
/-!
Reduction after a replacement of variables. Literals that are put in may make a fold another one, so
that a reduct of a term is not a reduct of its instance any more; but when sums, differences and
comparisons of literals are computed in both, it is.
-/

namespace ClosedTypes

namespace Skeleton

variable {rules : Rules} {h : Head} {op : Operator} {t u v a b : Skeleton}
  {ts us args : List Skeleton} {x y : Int64} {l : Literal}
  {θ : Variable → Skeleton}

def compute : Head → List Skeleton → Skeleton
  | .prim .add, [node (.lit (.int x)) [], node (.lit (.int y)) []] => int (x + y)
  | .prim .sub, [node (.lit (.int x)) [], node (.lit (.int y)) []] => int (x - y)
  | .prim .eq, [node (.lit l) [], node (.lit k) []] => bool (l = k)
  | h, ts => node h ts

mutual

/-- All sums, differences and comparisons of literals computed, from the inside to the outside. -/
def computed : Skeleton → Skeleton
  | var v => var v
  | lam b => lam (computed b)
  | node h ts => compute h (computedAll ts)

def computedAll : List Skeleton → List Skeleton
  | [] => []
  | t :: ts => computed t :: computedAll ts

end

@[simp] theorem computedAll_eq_map (ts : List Skeleton) : computedAll ts = ts.map computed := by
  induction ts with
  | nil => rfl
  | cons t ts ih => rw [computedAll, ih, List.map_cons]

theorem computed_node :
    (node h ts).computed = compute h (ts.map computed) := by rw [computed, computedAll_eq_map]

theorem compute_cases (h : Head) (ts : List Skeleton) : compute h ts = node h ts ∨
    ∃ op l k m, h = .prim op ∧ ts = [node (.lit l) [], node (.lit k) []] ∧
    compute h ts = node (.lit m) [] ∧
      Folds op ts (node (.lit m) []) := by
  unfold compute
  split
  · exact .inr ⟨_, _, _, _, rfl, rfl, rfl, .add⟩
  · exact .inr ⟨_, _, _, _, rfl, rfl, rfl, .sub⟩
  · exact .inr ⟨_, _, _, _, rfl, rfl, rfl, .eq⟩
  · exact .inl rfl

theorem eq_lit_of_reaches (ht : Reaches rules (node (.lit l) []) t) : t = node (.lit l) [] := by
  rcases ht.cases_head with rfl | ⟨w, hw, -⟩
  · rfl
  · exact absurd hw not_reduces_lit

theorem reaches_compute : Reaches rules (node h ts) (compute h ts) := by
  rcases compute_cases h ts with heq | ⟨op, l, k, m, rfl, -, heq, hfold⟩
  · rw [heq]
  · rw [heq]
    exact .fold hfold

theorem Joins.of_compute {h' : Head} (hr : Reaches rules (compute h ts) (compute h' us)) :
    Joins rules (node h ts) (node h' us) :=
  ⟨compute h' us, reaches_compute.trans hr, reaches_compute⟩

theorem Reaches.compute (h' : List.Forall₂ (Reaches rules) ts us) :
    Reaches rules (compute h ts) (compute h us) := by
  rcases compute_cases h ts with heq | ⟨op, l, k, m, rfl, rfl, -, -⟩
  · rw [heq]
    exact (Reaches.parts [] h').trans reaches_compute
  · obtain ⟨u, us, hu, hus, rfl⟩ := List.forall₂_cons_left_iff.1 h'
    obtain ⟨w, ws, hw, hws, rfl⟩ := List.forall₂_cons_left_iff.1 hus
    rw [List.forall₂_nil_left_iff.1 hws, eq_lit_of_reaches hu, eq_lit_of_reaches hw]

theorem reaches_computed : Reaches rules t t.computed := by
  induction t with
  | var v => exact .refl
  | lam b ih => exact ih.body
  | node h ts ih =>
    rw [computed_node]
    refine (Reaches.parts [] ?_).trans reaches_compute
    rw [List.forall₂_map_right_iff, List.forall₂_same]
    exact ih

theorem rename_compute (ρ : Variable → Variable) :
    (compute h ts).rename ρ = compute h (ts.map (rename ρ)) := by
  rcases compute_cases h ts with heq | ⟨op, l, k, m, rfl, rfl, heq, -⟩
  · rw [heq, rename, renameAll_eq_map]
    rcases compute_cases h (ts.map (rename ρ)) with heq' | ⟨op, l, k, m, rfl, hts, -, -⟩
    · exact heq'.symm
    -- a renaming makes no literals, so that the parts were these literals before
    · obtain ⟨a, b, rfl, ha, hb⟩ := exists_pair hts
      rw [rename_eq_replace] at ha hb
      rw [(spares_var ρ).eq_lit_of_replace ha, (spares_var ρ).eq_lit_of_replace hb] at heq ⊢
      exact heq.symm
  · rw [heq]
    exact heq.symm

theorem computed_rename (ρ : Variable → Variable) :
    (t.rename ρ).computed = t.computed.rename ρ := by
  induction t generalizing ρ with
  | var v => rfl
  | lam b ih => rw [rename, computed, computed, rename, ih]
  | node h ts ih =>
    rw [rename, renameAll_eq_map, computed_node, computed_node, rename_compute, List.map_map,
      List.map_map]
    exact congrArg (Skeleton.compute h) (List.map_congr_left fun t ht => ih t ht ρ)

theorem under_computed : (under fun v => (θ v).computed) = fun v => (under θ v).computed :=
  Variable.ext_push rfl fun v => by rw [under_up, under_up, computed_rename]

theorem reaches_computed_replace (t : Skeleton) (θ : Variable → Skeleton) :
    Reaches rules (t.replace fun v => (θ v).computed) (t.replace θ).computed := by
  induction t generalizing θ with
  | var v => exact .refl
  | lam b ih =>
    rw [replace, replace, computed, under_computed]
    exact (ih (under θ)).body
  | node h ts ih =>
    rw [replace, replace, replaceAll_eq_map, replaceAll_eq_map, computed_node]
    refine (Reaches.parts [] ?_).trans reaches_compute
    rw [List.map_map, List.forall₂_map_left_iff, List.forall₂_map_right_iff, List.forall₂_same]
    exact fun t ht => ih t ht θ

theorem computed_replace_computed (t : Skeleton) (θ : Variable → Skeleton) :
    (t.computed.replace θ).computed = (t.replace θ).computed := by
  induction t generalizing θ with
  | var v => rfl
  | lam b ih => rw [computed, replace, replace, computed, computed, ih]
  | node h ts ih =>
    have hparts : (ts.map computed).map (fun t => (t.replace θ).computed) = ts.map fun t =>
        (t.replace θ).computed := by
      rw [List.map_map]
      exact List.map_congr_left fun t ht => ih t ht θ
    rw [replace, replaceAll_eq_map, computed_node, computed_node, List.map_map]
    show _ = compute h (ts.map fun t => (t.replace θ).computed)
    rw [← hparts]
    rcases compute_cases h (ts.map computed) with heq | ⟨op, l, k, m, rfl, hts, heq, -⟩
    · rw [heq, replace, replaceAll_eq_map, computed_node, List.map_map]
      rfl
    · rw [heq, hts]
      exact (hts ▸ heq).symm

theorem compute_add_cases (a b : Skeleton) :
    (∃ x y, a = int x ∧ b = int y) ∨ (¬∃ x y, a = int x ∧ b = int y) ∧
    compute (.prim .add) [a, b] = prim .add [a, b] := by
  by_cases h : ∃ x y, a = int x ∧ b = int y
  · exact .inl h
  · refine .inr ⟨h, ?_⟩
    unfold compute
    split <;> simp_all [int, prim]

theorem compute_sub_cases (a b : Skeleton) :
    (∃ x y, a = int x ∧ b = int y) ∨ (¬∃ x y, a = int x ∧ b = int y) ∧
    compute (.prim .sub) [a, b] = prim .sub [a, b] := by
  by_cases h : ∃ x y, a = int x ∧ b = int y
  · exact .inl h
  · refine .inr ⟨h, ?_⟩
    unfold compute
    split <;> simp_all [int, prim]

theorem compute_eq_cases (a b : Skeleton) :
    (∃ l k, a = node (.lit l) [] ∧ b = node (.lit k) []) ∨
      (¬∃ l k, a = node (.lit l) [] ∧ b = node (.lit k) []) ∧
      compute (.prim .eq) [a, b] = prim .eq [a, b] := by
  by_cases h : ∃ l k, a = node (.lit l) [] ∧ b = node (.lit k) []
  · exact .inl h
  · refine .inr ⟨h, ?_⟩
    unfold compute
    split <;> simp_all [prim]

theorem decide_comm {α : Type} [DecidableEq α] (a b : α) : decide (a = b) = decide (b = a) :=
  decide_eq_decide.2 eq_comm

theorem decide_shift (n : Int64) :
    decide (Literal.int n = .int (y - x)) = decide (Literal.int (n + x) = .int y) := by
  rw [decide_eq_decide, Literal.int.injEq, Literal.int.injEq]
  grind

theorem reaches_compute_addSwap :
    Reaches rules (compute (.prim .add) [int x, b]) (compute (.prim .add) [b, int x]) := by
  rcases compute_add_cases (int x) b with ⟨_, n, -, rfl⟩ | ⟨hb, heq⟩
  · show Reaches rules (int (x + n)) (int (n + x))
    rw [Int64.add_comm]
  · rw [heq]
    exact (Reaches.fold (.addSwap fun n hn => hb ⟨x, n, rfl, hn⟩)).trans reaches_compute

theorem reaches_compute_addZero : Reaches rules (compute (.prim .add) [a, int 0]) a := by
  rcases compute_add_cases a (int 0) with ⟨n, _, rfl, -⟩ | ⟨-, heq⟩
  · show Reaches rules (int (n + 0)) (int n)
    rw [Int64.add_zero]
  · rw [heq]
    exact .fold .addZero

theorem reaches_compute_addMerge :
    Reaches rules (compute (.prim .add) [compute (.prim .add) [a, int x], int y])
      (compute (.prim .add) [a, int (x + y)]) := by
  rcases compute_add_cases a (int x) with ⟨n, _, rfl, -⟩ | ⟨-, heq⟩
  · show Reaches rules (int (n + x + y)) (int (n + (x + y)))
    rw [Int64.add_assoc]
  · rw [heq]
    exact (Reaches.fold .addMerge).trans reaches_compute

theorem reaches_compute_subLiteral :
    Reaches rules (compute (.prim .sub) [a, int y]) (compute (.prim .add) [a, int (-y)]) := by
  rcases compute_sub_cases a (int y) with ⟨n, _, rfl, -⟩ | ⟨ha, heq⟩
  · show Reaches rules (int (n - y)) (int (n + -y))
    rw [Int64.sub_eq_add_neg]
  · rw [heq]
    exact (Reaches.fold (.subLiteral fun n hn => ha ⟨n, y, hn, rfl⟩)).trans reaches_compute

theorem reaches_compute_subSelf : Reaches rules (compute (.prim .sub) [a, a]) (int 0) := by
  rcases compute_sub_cases a a with ⟨n, _, rfl, -⟩ | ⟨-, heq⟩
  · show Reaches rules (int (n - n)) (int 0)
    rw [Int64.sub_self]
  · rw [heq]
    exact .fold .subSelf

theorem reaches_compute_eqSelf : Reaches rules (compute (.prim .eq) [a, a]) (bool true) := by
  rcases compute_eq_cases a a with ⟨l, _, rfl, -⟩ | ⟨-, heq⟩
  · show Reaches rules (bool (l = l)) (bool true)
    rw [decide_eq_true rfl]
  · rw [heq]
    exact .fold .eqSelf

theorem reaches_compute_eqSwap :
    Reaches rules (compute (.prim .eq) [node (.lit l) [], b])
      (compute (.prim .eq) [b, node (.lit l) []]) := by
  rcases compute_eq_cases (node (.lit l) []) b with ⟨_, k, -, rfl⟩ | ⟨hb, heq⟩
  · show Reaches rules (bool (l = k)) (bool (k = l))
    rw [decide_comm]
  · rw [heq]
    exact (Reaches.fold (.eqSwap fun k hk => hb ⟨l, k, rfl, hk⟩)).trans reaches_compute

theorem reaches_compute_eqShift :
    Reaches rules (compute (.prim .eq) [compute (.prim .add) [a, int x], int y])
      (compute (.prim .eq) [a, int (y - x)]) := by
  rcases compute_add_cases a (int x) with ⟨n, _, rfl, -⟩ | ⟨-, heq⟩
  · show Reaches rules (bool (Literal.int (n + x) = .int y)) (bool (Literal.int n = .int (y - x)))
    rw [decide_shift]
  · rw [heq]
    exact (Reaches.fold .eqShift).trans reaches_compute

theorem Folds.computed (h : Folds op args t) (θ : Variable → Skeleton) :
    Reaches rules (compute (.prim op) (args.map fun a => (a.replace θ).computed))
      (t.replace θ).computed := by
  cases h with
  | add => exact .refl
  | addSwap _ => exact reaches_compute_addSwap
  | addZero => exact reaches_compute_addZero
  | addMerge => exact reaches_compute_addMerge
  | sub => exact .refl
  | subLiteral _ => exact reaches_compute_subLiteral
  | subSelf => exact reaches_compute_subSelf
  | mul => exact .fold .mul
  | lt => exact .fold .lt
  | eq => exact .refl
  | eqSelf => exact reaches_compute_eqSelf
  | eqSwap _ => exact reaches_compute_eqSwap
  | eqShift => exact reaches_compute_eqShift
  | falseAnd => exact .fold .falseAnd
  | andFalse => exact .fold .andFalse
  | trueAnd => exact .fold .trueAnd
  | andTrue => exact .fold .andTrue
  | trueOr => exact .fold .trueOr
  | orTrue => exact .fold .orTrue
  | falseOr => exact .fold .falseOr
  | orFalse => exact .fold .orFalse
  | not => exact .fold .not

theorem computed_applyAll {f : Skeleton} :
    (f.applyAll ts).computed = f.computed.applyAll (ts.map computed) := by
  induction ts generalizing f with
  | nil => rfl
  | cons t ts ih => exact ih

theorem reaches_instantiate_computed (b a : Skeleton) :
    Reaches rules (b.computed.instantiate a.computed) (b.instantiate a).computed := by
  have hpush : Variable.push a.computed var = fun v => (Variable.push a var v).computed :=
    Variable.ext_push rfl fun v => by rw [Variable.push_up, Variable.push_up, computed]
  rw [instantiate, instantiate, hpush, ← computed_replace_computed b]
  exact reaches_computed_replace _ _

theorem assigning_computed (binders : List Name) (args : List Skeleton) :
    assigning binders (args.map computed) = fun v => (assigning binders args v).computed := by
  refine funext fun v => ?_
  cases v with
  | bound i => rfl
  | free x =>
    rw [assigning, assigning, find?_ofList_zip_map]
    cases (Index.ofList (binders.zip args)).find? x <;> rfl

section

variable (hrules : rules.Closed)

include hrules

theorem Contracts.computed (h : Contracts rules t u) (θ : Variable → Skeleton) :
    Reaches rules (t.replace θ).computed (u.replace θ).computed := by
  have hmap (ts : List Skeleton) : (replaceAll θ ts).map Skeleton.computed =
      (ts.map (Skeleton.replace θ)).map Skeleton.computed := by
    rw [replaceAll_eq_map]
  cases h with
  | beta =>
    rw [instantiate_replace]
    exact .head (.here .beta) (reaches_instantiate_computed _ _)
  | erasure => exact .single (.here .erasure)
  | @projection elems i t hi =>
    refine .single (.here ?_)
    show Contracts rules (node (.proj i) [node .tuple (computedAll (replaceAll θ elems))]) _
    refine .projection ?_
    rw [computedAll_eq_map, hmap, List.map_map, List.getElem?_map, hi]
    rfl
  | @branch c t e =>
    refine .single (.here ?_)
    cases c <;> exact .branch
  | fold h =>
    rw [replace_prim, prim, computed_node, List.map_map]
    exact h.computed θ
  | @equation e c fields args d he hc hd hlen =>
    rw [replace_assigning (hrules.rhs hd) hlen]
    refine .head (.here ?_) (assigning_computed _ _ ▸ reaches_computed_replace _ _)
    show Contracts rules
      (node (.elim e)
        (node (.ctor c) (computedAll (replaceAll θ fields)) :: computedAll (replaceAll θ args))) _
    rw [computedAll_eq_map, computedAll_eq_map, hmap, hmap, List.map_append, List.map_append]
    exact .equation he hc hd (by simpa using hlen)
  | @constructor c args body hbody =>
    rw [replace_applyAll, Term.skeleton_of_closed (hrules.body hbody), computed_applyAll]
    refine .head (.here ?_) reaches_computed.applyAll
    show Contracts rules (node (.ctor c) (computedAll (replaceAll θ args))) _
    rw [computedAll_eq_map, hmap]
    exact .constructor hbody
  | @eliminator e s args body hbody =>
    rw [replace_applyAll, Term.skeleton_of_closed (hrules.body hbody), computed_applyAll]
    refine .head (.here ?_) reaches_computed.applyAll
    show Contracts rules
      (node (.elim e) ((s.replace θ).computed :: computedAll (replaceAll θ args))) _
    rw [computedAll_eq_map, hmap, List.map_cons, List.map_cons]
    exact .eliminator hbody

theorem Reduces.computed (h : Reduces rules t u) (θ : Variable → Skeleton) :
    Reaches rules (t.replace θ).computed (u.replace θ).computed := by
  induction t generalizing u θ with
  | var v => exact absurd h not_reduces_var
  | lam b ih =>
    obtain ⟨c, hc, rfl⟩ := exists_of_reduces_lam h
    exact (ih hc (under θ)).body
  | node h' ts ih =>
    cases h with
    | here h => exact h.computed hrules θ
    | part h =>
      have hparts :=
        h.map (q := Reaches rules) (f := fun t => (t.replace θ).computed) fun t ht u hu =>
          ih t ht hu θ
      rw [Skeleton.replace, Skeleton.replace, replaceAll_eq_map, replaceAll_eq_map, computed_node,
        computed_node, List.map_map, List.map_map]
      exact .compute (hparts.forall₂ (fun _ => .refl) fun _ _ => id)

theorem Reaches.computed (h : Reaches rules t u) (θ : Variable → Skeleton) :
    Reaches rules (t.replace θ).computed (u.replace θ).computed := by
  induction h with
  | refl => exact .refl
  | tail _ hstep ih => exact ih.trans (hstep.computed hrules θ)

/-- A reduct may turn into something else when variables are replaced, but it comes together
again with what was reduced. -/
theorem Reaches.replace (h : Reaches rules t u) (θ : Variable → Skeleton) :
    Joins rules (t.replace θ) (u.replace θ) :=
  ⟨(u.replace θ).computed, reaches_computed.trans (h.computed hrules θ), reaches_computed⟩

end

end Skeleton

end ClosedTypes
