import ClosedTypes.Proofs.Reduction.Fold
import ClosedTypes.Proofs.Reduction.Normalization
import ClosedTypes.Proofs.Term.Uses
/-!
Evaluation looks up nothing but the operations that a term uses, and the terms on the way make no
other uses than those that the rules put in. Rules that agree on them evaluate the term alike, on
every budget.
-/

namespace ClosedTypes

variable {known : Use → Prop} {t u w s : Term} {ts us args : List Term}

namespace Rules

variable {rules rules' : Rules} {n k : Nat}

structure Over (known : Use → Prop) (rules : Rules) : Prop where
  equations : ∀ {e n c d}, known (.eliminator e n) → rules.context.equation? e c = some d →
    d.rhs.Over known
  implementations : ∀ {op body}, rules.implementation? op = some body → body.Over known

/-- The rules have the same implementations, and the same equations for the known eliminators
that are not implemented. -/
structure Agree (known : Use → Prop) (rules rules' : Rules) : Prop where
  equations : ∀ {e n}, known (.eliminator e n) → rules.implementation? e = none →
    ∀ c, rules'.context.equation? e c = rules.context.equation? e c
  implementations : ∀ op, rules'.implementation? op = rules.implementation? op

theorem Over.contracts (h : rules.Over known) (ht : t.Over known) (hstep : rules.Contracts t u) :
    u.Over known := by
  cases hstep with
  | beta =>
    rw [Term.over_app, Term.over_lam] at ht
    exact ht.1.subst_ofList (List.forall_mem_singleton.2 ht.2)
  | erasure => exact ht
  | projection hi =>
    rw [Term.over_proj, Term.over_tuple] at ht
    exact ht _ (List.mem_of_getElem? hi)
  | @branch c t e =>
    rw [Term.over_prim] at ht
    cases c
    · exact ht e (by simp)
    · exact ht t (by simp)
  | equation hd =>
    rw [Term.over_elim, Term.over_ctor] at ht
    refine (h.equations ht.1 hd).subst_ofList fun p hp => ?_
    rcases List.mem_append.1 (List.of_mem_zip hp).2 with hp | hp
    · exact ht.2.1.2 _ hp
    · exact ht.2.2 _ hp
  | fold hfold =>
    rw [Term.over_prim] at ht
    refine fold_of_parts (fun _ => Term.over_lit) (fun op a b => ?_) ht hfold
    rw [Term.over_prim, List.forall_mem_cons, List.forall_mem_singleton]
  | constructor hbody =>
    rw [Term.over_ctor] at ht
    exact (h.implementations hbody).applyAll ht.2
  | eliminator hbody =>
    rw [Term.over_elim] at ht
    exact (h.implementations hbody).applyAll (List.forall_mem_cons.2 ht.2)

mutual

theorem Over.reduces (hr : rules.Over known) :
    ∀ {t u : Term}, t.Over known → rules.Reduces t u → u.Over known
  | _, _, ht, .here h => hr.contracts ht h
  | _, _, ht, .fn h => Term.over_app.2 ⟨hr.reduces (Term.over_app.1 ht).1 h, (Term.over_app.1 ht).2⟩
  | _, _, ht, .arg h =>
    Term.over_app.2 ⟨(Term.over_app.1 ht).1, hr.reduces (Term.over_app.1 ht).2 h⟩
  | _, _, ht, .body h => Term.over_lam.2 (hr.reduces (Term.over_lam.1 ht) h)
  | _, _, ht, .ascribed h => Term.over_ann.2 (hr.reduces (Term.over_ann.1 ht) h)
  | _, _, ht, .fields h =>
    Term.over_ctor.2 ⟨h.length_eq ▸ (Term.over_ctor.1 ht).1,
      hr.reducesOne (Term.over_ctor.1 ht).2 h⟩
  | _, _, ht, .scrutinee h =>
    Term.over_elim.2 ⟨(Term.over_elim.1 ht).1, hr.reduces (Term.over_elim.1 ht).2.1 h,
      (Term.over_elim.1 ht).2.2⟩
  | _, _, ht, .operands h =>
    Term.over_elim.2 ⟨h.length_eq ▸ (Term.over_elim.1 ht).1, (Term.over_elim.1 ht).2.1,
      hr.reducesOne (Term.over_elim.1 ht).2.2 h⟩
  | _, _, ht, .prim h => Term.over_prim.2 (hr.reducesOne (Term.over_prim.1 ht) h)
  | _, _, ht, .tuple h => Term.over_tuple.2 (hr.reducesOne (Term.over_tuple.1 ht) h)
  | _, _, ht, .proj h => Term.over_proj.2 (hr.reduces (Term.over_proj.1 ht) h)

theorem Over.reducesOne (hr : rules.Over known) :
    ∀ {ts us : List Term}, (∀ t ∈ ts, t.Over known) → rules.ReducesOne ts us →
    ∀ u ∈ us, u.Over known
  | _, _, hts, .head h =>
    List.forall_mem_cons.2 ⟨hr.reduces (List.forall_mem_cons.1 hts).1 h,
      (List.forall_mem_cons.1 hts).2⟩
  | _, _, hts, .tail h =>
    List.forall_mem_cons.2 ⟨(List.forall_mem_cons.1 hts).1,
      hr.reducesOne (List.forall_mem_cons.1 hts).2 h⟩

end

theorem Over.reaches (h : rules.Over known) (ht : t.Over known) (hu : rules.Reaches t u) :
    u.Over known := by
  induction hu with
  | refl => exact ht
  | tail _ hstep ih => exact h.reduces ih hstep

theorem Over.whnf (h : rules.Over known) (ht : t.Over known)
    (hw : (rules.whnf n t).1 = some (w, k)) : w.Over known :=
  h.reaches ht (runs_of_whnf hw).reaches

theorem Over.normalizeEach (h : rules.Over known) (hts : ∀ t ∈ ts, t.Over known)
    (hus : (rules.normalizeEach n ts).1 = some (us, k)) : ∀ u ∈ us, u.Over known := by
  obtain ⟨hlen, hall⟩ := normalizes_of_normalizeEach hus
  exact forall_of_forall_zip hlen fun p hp =>
    h.reaches (hts _ (List.of_mem_zip hp).1) (hall p hp).reaches

theorem Agree.contract?_eq (h : Agree known rules rules') {e : Name} {m : Nat}
    (he : known (.eliminator e m))
    (himpl : rules.implementation? e = none) (s : Term) (args : List Term) :
    rules'.contract? e s args = rules.contract? e s args := by
  cases s with
  | ctor c fields => exact congrArg (Option.map _) (h.equations he himpl c)
  | _ => rfl

end Rules

end ClosedTypes
