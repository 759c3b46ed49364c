import ClosedTypes.Reduction.Relation
/-!
The reducts of a term, counted out. When all of them are exhausted after some number of steps,
reduction of the term ends.
-/

namespace ClosedTypes.Rules

variable {rules : Rules} {n : Nat} {t u : Term}

def contracta (rules : Rules) : Term → List Term
  | .app f a => (f.beta? a).toList
  | .ann t _ => [t]
  | .ctor c args => (rules.implementation? c).toList.map (·.applyAll args)
  | .elim e s args =>
    (rules.contract? e s args).toList ++ (rules.implementation? e).toList.map
      (·.applyAll (s :: args))
  | .proj t i => (t.component? i).toList
  | .prim .ite [c, t, e] => (c.branch? t e).toList
  | .prim op args => (fold op args).toList
  | _ => []

mutual

def reducts (rules : Rules) : Term → List Term
  | .var _ => []
  | .lit _ => []
  | .app f a =>
    contracta rules (.app f a) ++
      ((reducts rules f).map (.app · a) ++ (reducts rules a).map (.app f))
  | .lam x dom b => (reducts rules b).map (.lam x dom)
  | .ann t ty => contracta rules (.ann t ty) ++ (reducts rules t).map (.ann · ty)
  | .ctor c args => contracta rules (.ctor c args) ++ (reductsOne rules args).map (.ctor c)
  | .elim e s args =>
    contracta rules (.elim e s args) ++
      ((reducts rules s).map (.elim e · args) ++ (reductsOne rules args).map (.elim e s))
  | .prim op args => contracta rules (.prim op args) ++ (reductsOne rules args).map (.prim op)
  | .tuple elems => (reductsOne rules elems).map .tuple
  | .proj t i => contracta rules (.proj t i) ++ (reducts rules t).map (.proj · i)

def reductsOne (rules : Rules) : List Term → List (List Term)
  | [] => []
  | t :: ts => (reducts rules t).map (· :: ts) ++ (reductsOne rules ts).map (t :: ·)

end

/-- In whatever order, reduction ends in fewer than `n` steps. -/
def endsBefore (rules : Rules) : Nat → Term → Bool
  | 0, _ => false
  | n + 1, t => (reducts rules t).all (endsBefore rules n)

theorem Contracts.mem_contracta (h : rules.Contracts t u) : u ∈ rules.contracta t := by
  cases h with
  | beta => exact List.mem_cons_self
  | erasure => exact List.mem_cons_self
  | projection hi => exact Option.mem_toList.2 hi
  | branch => exact List.mem_cons_self
  | equation hd =>
    exact List.mem_append_left _ (Option.mem_toList.2 (Option.map_eq_some_iff.2 ⟨_, hd, rfl⟩))
  | @fold op args t hfold =>
    have hfolds : rules.contracta (.prim op args) = (ClosedTypes.fold op args).toList := by
      cases op <;> first | rfl | cases hfold
    rw [hfolds]
    exact Option.mem_toList.2 hfold
  | constructor hbody => exact List.mem_map.2 ⟨_, Option.mem_toList.2 hbody, rfl⟩
  | eliminator hbody =>
    exact List.mem_append_right _ (List.mem_map.2 ⟨_, Option.mem_toList.2 hbody, rfl⟩)

theorem contracta_subset_reducts : rules.contracta t ⊆ rules.reducts t := by
  cases t with
  | var x => exact List.nil_subset _
  | lit l => exact List.nil_subset _
  | lam x dom b => exact List.nil_subset _
  | tuple elems => exact List.nil_subset _
  | app f a => exact List.subset_append_left _ _
  | elim e s args => exact List.subset_append_left _ _
  | ann t ty => exact List.subset_append_left _ _
  | ctor c args => exact List.subset_append_left _ _
  | prim op args => exact List.subset_append_left _ _
  | proj t i => exact List.subset_append_left _ _

mutual

theorem Reduces.mem_reducts : ∀ {t u : Term}, rules.Reduces t u → u ∈ rules.reducts t
  | _, _, .here h => contracta_subset_reducts h.mem_contracta
  | _, _, .fn h =>
    List.mem_append_right _ (List.mem_append_left _ (List.mem_map_of_mem h.mem_reducts))
  | _, _, .arg h =>
    List.mem_append_right _ (List.mem_append_right _ (List.mem_map_of_mem h.mem_reducts))
  | _, _, .body h => List.mem_map_of_mem h.mem_reducts
  | _, _, .ascribed h => List.mem_append_right _ (List.mem_map_of_mem h.mem_reducts)
  | _, _, .fields h => List.mem_append_right _ (List.mem_map_of_mem h.mem_reductsOne)
  | _, _, .scrutinee h =>
    List.mem_append_right _ (List.mem_append_left _ (List.mem_map_of_mem h.mem_reducts))
  | _, _, .operands h =>
    List.mem_append_right _ (List.mem_append_right _ (List.mem_map_of_mem h.mem_reductsOne))
  | _, _, .prim h => List.mem_append_right _ (List.mem_map_of_mem h.mem_reductsOne)
  | _, _, .tuple h => List.mem_map_of_mem h.mem_reductsOne
  | _, _, .proj h => List.mem_append_right _ (List.mem_map_of_mem h.mem_reducts)

theorem ReducesOne.mem_reductsOne :
    ∀ {ts us : List Term}, rules.ReducesOne ts us → us ∈ rules.reductsOne ts
  | _, _, .head h => List.mem_append_left _ (List.mem_map_of_mem h.mem_reducts)
  | _, _, .tail h => List.mem_append_right _ (List.mem_map_of_mem h.mem_reductsOne)

end

theorem terminates_of_endsBefore (h : rules.endsBefore n t = true) : rules.Terminates t := by
  induction n generalizing t with
  | zero => cases h
  | succ n ih => exact .intro _ fun u hu => ih (List.all_eq_true.1 h u hu.mem_reducts)

end ClosedTypes.Rules
