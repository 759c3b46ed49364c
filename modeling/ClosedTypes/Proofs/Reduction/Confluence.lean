import ClosedTypes.Proofs.Reduction.Computed
/-!
Reduction of skeletons is locally confluent: whichever two redexes contract first, the results come
together again. So what ends in every order has one normal form.
-/

namespace ClosedTypes

namespace Skeleton

variable {rules : Rules} {op : Operator} {t u v : Skeleton} {ts us args : List Skeleton}
  {x y : Int64}

theorem reduces_addend (h : Reduces rules (prim .add [t, int x]) u) :
    (∃ z, t = int z ∧ u = int (z + x)) ∨ (x = 0 ∧ u = t) ∨
    (∃ s z, t = prim .add [s, int z] ∧ u = prim .add [s, int (z + x)]) ∨
      ∃ t', Reduces rules t t' ∧ u = prim .add [t', int x] := by
  cases h with
  | here h =>
    cases h with
    | fold h =>
      cases h with
      | add => exact .inl ⟨_, rfl, rfl⟩
      | addSwap h => exact absurd rfl (h x)
      | addZero => exact .inr (.inl ⟨rfl, rfl⟩)
      | addMerge => exact .inr (.inr (.inl ⟨_, _, rfl, rfl⟩))
  | part h =>
    cases h with
    | head h => exact .inr (.inr (.inr ⟨_, h, rfl⟩))
    | tail h =>
      cases h with
      | head h => exact absurd h not_reduces_lit
      | tail h => cases h

theorem joins_addMerge (h : Reduces rules (prim .add [t, int x]) u) :
    Joins rules (prim .add [t, int (x + y)]) (prim .add [u, int y]) := by
  rcases reduces_addend h with ⟨z, rfl, rfl⟩ | ⟨rfl, rfl⟩ | ⟨s, z, rfl, rfl⟩ | ⟨t', ht, rfl⟩
  · refine ⟨int (z + (x + y)), .fold .add, ?_⟩
    rw [← Int64.add_assoc]
    exact .fold .add
  · rw [Int64.zero_add]
    exact .of_eq rfl
  · refine ⟨prim .add [s, int (z + (x + y))], .fold .addMerge, ?_⟩
    rw [← Int64.add_assoc]
    exact .fold .addMerge
  · exact ⟨_, .left ht, .fold .addMerge⟩

theorem joins_eqShift (h : Reduces rules (prim .add [t, int x]) u) :
    Joins rules (prim .eq [t, int (y - x)]) (prim .eq [u, int y]) := by
  rcases reduces_addend h with ⟨z, rfl, rfl⟩ | ⟨rfl, rfl⟩ | ⟨s, z, rfl, rfl⟩ | ⟨t', ht, rfl⟩
  · refine ⟨bool (Literal.int z = .int (y - x)), .fold .eq, ?_⟩
    rw [decide_shift]
    exact .fold .eq
  · rw [Int64.sub_zero]
    exact .of_eq rfl
  · refine ⟨prim .eq [s, int (y - x - z)], .fold .eqShift, ?_⟩
    have hshift : y - x - z = y - (z + x) := by grind
    rw [hshift]
    exact .fold .eqShift
  · exact ⟨_, .left ht, .fold .eqShift⟩

theorem Folds.peak (h : Folds op args t) (h' : One (Reduces rules) args us) :
    Joins rules t (prim op us) := by
  cases h with
  | add => exact absurd h' not_moves_lits
  | sub => exact absurd h' not_moves_lits
  | mul => exact absurd h' not_moves_lits
  | lt => exact absurd h' not_moves_lits
  | eq => exact absurd h' not_moves_lits
  | not =>
    cases h' with
    | head h => exact absurd h not_reduces_lit
    | tail h => cases h
  | addSwap _ =>
    obtain ⟨b', hb, rfl⟩ := moves_right h'
    exact .of_left (.left hb) (.symm (.of_compute reaches_compute_addSwap))
  | eqSwap _ =>
    obtain ⟨b', hb, rfl⟩ := moves_right h'
    exact .of_left (.left hb) (.symm (.of_compute reaches_compute_eqSwap))
  | subLiteral _ =>
    obtain ⟨a', ha, rfl⟩ := moves_left h'
    exact .of_left (.left ha) (.symm (.of_compute reaches_compute_subLiteral))
  | subSelf =>
    refine .symm (.of_reaches ?_)
    rcases h'.of_pair with ⟨a', ha, rfl⟩ | ⟨a', ha, rfl⟩
    · exact (Reaches.right ha).trans (Reaches.fold .subSelf)
    · exact (Reaches.left ha).trans (Reaches.fold .subSelf)
  | eqSelf =>
    refine .symm (.of_reaches ?_)
    rcases h'.of_pair with ⟨a', ha, rfl⟩ | ⟨a', ha, rfl⟩
    · exact (Reaches.right ha).trans (Reaches.fold .eqSelf)
    · exact (Reaches.left ha).trans (Reaches.fold .eqSelf)
  | addZero =>
    obtain ⟨a', ha, rfl⟩ := moves_left h'
    exact .of_contracts (.single ha) (.fold .addZero)
  | addMerge =>
    obtain ⟨w, hw, rfl⟩ := moves_left h'
    exact joins_addMerge hw
  | eqShift =>
    obtain ⟨w, hw, rfl⟩ := moves_left h'
    exact joins_eqShift hw
  | falseAnd =>
    obtain ⟨b', -, rfl⟩ := moves_right h'
    exact .of_contracts .refl (.fold .falseAnd)
  | andFalse =>
    obtain ⟨a', -, rfl⟩ := moves_left h'
    exact .of_contracts .refl (.fold .andFalse)
  | trueAnd =>
    obtain ⟨b', hb, rfl⟩ := moves_right h'
    exact .of_contracts (.single hb) (.fold .trueAnd)
  | andTrue =>
    obtain ⟨a', ha, rfl⟩ := moves_left h'
    exact .of_contracts (.single ha) (.fold .andTrue)
  | trueOr =>
    obtain ⟨b', -, rfl⟩ := moves_right h'
    exact .of_contracts .refl (.fold .trueOr)
  | orTrue =>
    obtain ⟨a', -, rfl⟩ := moves_left h'
    exact .of_contracts .refl (.fold .orTrue)
  | falseOr =>
    obtain ⟨b', hb, rfl⟩ := moves_right h'
    exact .of_contracts (.single hb) (.fold .falseOr)
  | orFalse =>
    obtain ⟨a', ha, rfl⟩ := moves_left h'
    exact .of_contracts (.single ha) (.fold .orFalse)

theorem Folds.unique (h : Folds op args t) (h' : Folds op args u) : t = u := by
  -- two folds of the same operands overlap at literals, at equal operands and at zero
  cases h <;> cases h' <;> first | rfl | grind [int, Int64.add_zero]

theorem Contracts.unique (h : Contracts rules t u) (h' : Contracts rules t v) : u = v := by
  cases h with
  | beta =>
    cases h'
    rfl
  | erasure =>
    cases h'
    rfl
  | projection hi =>
    cases h' with
    | projection hi' => exact Option.some.inj (hi.symm.trans hi')
  | branch =>
    cases h' with
    | branch => rfl
    | fold h' => cases h'
  | fold h =>
    cases h' with
    | branch => cases h
    | fold h' => exact h.unique h'
  | equation he hc hd _ =>
    cases h' with
    | equation _ _ hd' _ =>
      cases hd.symm.trans hd'
      rfl
    | eliminator hbody =>
      rw [he] at hbody
      cases hbody
  | constructor hbody =>
    cases h' with
    | constructor hbody' =>
      cases hbody.symm.trans hbody'
      rfl
  | eliminator hbody =>
    cases h' with
    | equation he _ _ _ =>
      rw [he] at hbody
      cases hbody
    | eliminator hbody' =>
      cases hbody.symm.trans hbody'
      rfl

section

variable (hrules : rules.Closed)

include hrules

theorem reaches_assigning {d : Equation} (h : One (Reduces rules) ts us) :
    Reaches rules ((d.rhs.skeleton []).replace (assigning d.binders ts))
      ((d.rhs.skeleton []).replace (assigning d.binders us)) := by
  refine reaches_replace hrules _ fun v => ?_
  match v with
  | .bound i => exact .refl
  | .free x =>
    have hrel :=
      find?_zip_rel d.binders (h.forall₂ (fun _ => .refl) fun _ _ => Relation.ReflTransGen.single) x
    unfold assigning
    dsimp only
    generalize (Index.ofList (d.binders.zip ts)).find? x = r,
      (Index.ofList (d.binders.zip us)).find? x = s at hrel ⊢
    cases hrel with
    | some h => exact h
    | none => exact .refl

theorem Contracts.peak (h : Contracts rules t u) (h' : Reduces rules t v) : Joins rules u v := by
  cases h' with
  | here h' => exact .of_eq (h.unique h')
  | body h' => cases h
  | part h' =>
    cases h with
    | @beta b a =>
      cases h' with
      | head hf =>
        obtain ⟨c, hc, rfl⟩ := exists_of_reduces_lam hf
        exact .of_right (.single (.here .beta)) (Reaches.replace hrules (.single hc) _)
      | tail ha =>
        cases ha with
        -- the body may use its argument many times or not at all, so that the copies are reduced
        -- one after the other
        | @head _ a' _ ha =>
          refine .of_contracts (reaches_replace hrules b fun v => ?_) .beta
          obtain rfl | ⟨w, rfl⟩ := v.eq_bound_or_up
          · exact .single ha
          · rw [Variable.push_up, Variable.push_up]
        | tail ha => cases ha
    | erasure =>
      cases h' with
      | head ht => exact .of_contracts (.single ht) .erasure
      | tail h' => cases h'
    | projection hi =>
      cases h' with
      | head ht =>
        cases ht with
        | here ht => cases ht
        | part ht =>
          obtain ⟨w, hw, rfl | hstep⟩ := ht.getElem? hi
          · exact .of_contracts .refl (.projection hw)
          · exact .of_contracts (.single hstep) (.projection hw)
      | tail h' => cases h'
    | @branch c t e =>
      cases h' with
      | head hc => exact absurd hc not_reduces_lit
      | tail h' =>
        cases h' with
        | head ht =>
          refine .of_contracts ?_ .branch
          cases c
          · exact .refl
          · exact .single ht
        | tail h' =>
          cases h' with
          | head he =>
            refine .of_contracts ?_ .branch
            cases c
            · exact .single he
            · exact .refl
          | tail h' => cases h'
    | fold h => exact h.peak h'
    | @equation e c fields args d he hc hd hlen =>
      cases h' with
      | head hs =>
        cases hs with
        | here hs =>
          cases hs with
          | constructor hbody =>
            rw [hc] at hbody
            cases hbody
        | part hs =>
          have hmove := hs.append_right args
          exact .of_contracts (reaches_assigning hrules hmove)
            (.equation he hc hd (hlen.trans hmove.length_eq))
      | tail hargs =>
        have hmove := hargs.append_left fields
        exact .of_contracts (reaches_assigning hrules hmove)
          (.equation he hc hd (hlen.trans hmove.length_eq))
    | constructor hbody =>
      exact .of_contracts (.single (reduces_applyAll h')) (.constructor hbody)
    | eliminator hbody =>
      cases h' with
      | head hs =>
        exact .of_contracts (.single (reduces_applyAll (.head hs))) (.eliminator hbody)
      | tail hargs =>
        exact .of_contracts (.single (reduces_applyAll (.tail hargs))) (.eliminator hbody)

/-- Reduction is locally confluent. -/
theorem Reduces.peak (h : Reduces rules t u) (h' : Reduces rules t v) : Joins rules u v := by
  induction t generalizing u v with
  | var v => exact absurd h not_reduces_var
  | lam b ih =>
    obtain ⟨c, hc, rfl⟩ := exists_of_reduces_lam h
    obtain ⟨c', hc', rfl⟩ := exists_of_reduces_lam h'
    exact (ih hc hc').body
  | node head ts ih =>
    cases h with
    | here h => exact h.peak hrules h'
    | part h =>
      cases h' with
      | here h' => exact (h'.peak hrules (.part h)).symm
      | part h' =>
        rcases h.peak h' fun t ht u v => ih t ht with hj | ⟨ws, hu, hv⟩
        · exact .part hj
        · exact ⟨_, .single (.part hu), .single (.part hv)⟩

/-- Newman's lemma: what ends in every order ends in one place. -/
theorem Reaches.joins (hend : Acc (fun u t => Reduces rules t u) t) (hu : Reaches rules t u)
    (hv : Reaches rules t v) :
    Joins rules u v := by
  induction hend generalizing u v with
  | intro t _ ih =>
    rcases hu.cases_head with rfl | ⟨a, ha, hu⟩
    · exact .of_reaches hv
    · rcases hv.cases_head with rfl | ⟨b, hb, hv⟩
      · exact .symm (.of_reaches (.head ha hu))
      -- the first steps come together, and both of their reducts are nearer to the end
      · obtain ⟨w, haw, hbw⟩ := ha.peak hrules hb
        obtain ⟨w', huw, hww⟩ := ih a ha hu haw
        obtain ⟨z, hwz, hvz⟩ := ih b hb (hbw.trans hww) hv
        exact ⟨z, huw.trans hwz, hvz⟩

theorem Reaches.of_normal (hend : Acc (fun u t => Reduces rules t u) t) (hu : Reaches rules t u)
    (hv : Reaches rules t v) (hnormal : ∀ w, ¬Reduces rules u w) : Reaches rules v u := by
  obtain ⟨w, hw, hv⟩ := hu.joins hrules hend hv
  rcases hw.cases_head with rfl | ⟨w', hw', -⟩
  · exact hv
  · exact absurd hw' (hnormal w')

end

end Skeleton

end ClosedTypes
