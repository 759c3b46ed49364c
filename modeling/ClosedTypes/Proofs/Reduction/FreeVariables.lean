import ClosedTypes.Proofs.Reduction.Renaming
/-!
Reduction invents no free variables. An equation's right-hand side speaks of the equation's binders
alone, and where all arguments are there each binder is replaced by one of them; implementations
speak of nothing around them. So a closed program stays closed.
-/

namespace ClosedTypes

variable {known : Use → Prop} {t u : Term} {ts us args : List Term} {x e c : Name}

theorem append_subset_append {xs ys xs' ys' : List Name} (h : xs ⊆ ys) (h' : xs' ⊆ ys') :
    xs ++ xs' ⊆ ys ++ ys' :=
  List.append_subset.2 ⟨List.subset_append_of_subset_left _ h,
    List.subset_append_of_subset_right _ h'⟩

namespace Term

theorem free_subset_freeAll (h : t ∈ ts) : t.free ⊆ freeAll ts :=
  fun _ hx => mem_freeAll.2 ⟨t, h, hx⟩

theorem freeAll_subset {xs : List Name} : freeAll ts ⊆ xs ↔ ∀ t ∈ ts, t.free ⊆ xs := by
  rw [freeAll_eq]
  exact List.forall_mem_flatMap

theorem free_applyAll (f : Term) (args : List Term) :
    (f.applyAll args).free = f.free ++ freeAll args := by
  induction args generalizing f with
  | nil => exact (List.append_nil _).symm
  | cons a args ih => exact (ih (.app f a)).trans (List.append_assoc ..)

theorem free_instantiate_subset {b a : Term} {dom : Option Ty} :
    (b.instantiate x a).free ⊆ (app (lam x dom b) a).free := by
  intro y hy
  rw [instantiate, mem_free_subst] at hy
  simp only [find?_ofList_singleton] at hy
  rcases hy with ⟨hy, hnone⟩ | ⟨z, -, r, hr, hy⟩
  · have hne : y ≠ x := fun e => by simp [e] at hnone
    exact List.mem_append_left _ (List.mem_filter.2 ⟨hy, by simpa using hne⟩)
  · split at hr <;> cases hr
    exact List.mem_append_right _ hy

end Term

namespace Rules

variable {rules : Rules}

open Term (freeAll)

theorem Fitting.free_subst_rhs (hrules : rules.Fitting known) {d : Equation}
    (hd : rules.context.equation? e c = some d)
    (hlen : d.binders.length = args.length) :
    (d.rhs.subst (.ofList (d.binders.zip args))).free ⊆ freeAll args := by
  intro x hx
  rcases Term.mem_free_subst.1 hx with ⟨hx, hnone⟩ | ⟨y, -, r, hr, hx⟩
  · obtain ⟨a, ha⟩ := Skeleton.isSome_find?_zip hlen (hrules.closed.rhs hd x hx)
    cases hnone.symm.trans ha
  · exact Term.free_subset_freeAll (List.of_mem_zip (Index.mem_of_find?_ofList hr)).2 hx

theorem Fitting.free_applyAll_body (hrules : rules.Fitting known) {body : Term}
    (hbody : rules.implementation? x = some body)
    (args : List Term) : (body.applyAll args).free = freeAll args := by
  rw [Term.free_applyAll, hrules.closed.body hbody, List.nil_append]

theorem Contracts.free_subset (h : rules.Contracts t u) (hrules : rules.Fitting known)
    (ht : t.Over known) : u.free ⊆ t.free := by
  cases h with
  | beta => exact Term.free_instantiate_subset
  | erasure => exact List.Subset.refl _
  | projection hi => exact Term.free_subset_freeAll (List.mem_of_getElem? hi)
  | @branch c t e =>
    have hbranch : (if c then t else e) ∈ [.bool c, t, e] := by cases c <;> simp
    exact Term.free_subset_freeAll hbranch
  | @equation e c fields args d hd =>
    rw [Term.over_elim, Term.over_ctor] at ht
    have hlen : d.binders.length = (fields ++ args).length := by
      rw [hrules.arity hd ht.1 ht.2.1.1, List.length_append]
    have hparts : freeAll (fields ++ args) = (Term.elim e (.ctor c fields) args).free := by
      rw [Term.freeAll_eq, List.flatMap_append, ← Term.freeAll_eq, ← Term.freeAll_eq]
      rfl
    rw [← hparts]
    exact hrules.free_subst_rhs hd hlen
  | @fold op args u hfold =>
    refine fold_of_parts (P := fun a => a.free ⊆ freeAll args) (fun _ => List.nil_subset _)
      (fun op a b => ?_)
      (fun a ha => Term.free_subset_freeAll ha) hfold
    show freeAll [a, b] ⊆ _ ↔ _
    rw [Term.freeAll_subset, List.forall_mem_cons, List.forall_mem_singleton]
  | constructor hbody =>
    rw [hrules.free_applyAll_body hbody]
    exact List.Subset.refl _
  | eliminator hbody =>
    rw [hrules.free_applyAll_body hbody]
    exact List.Subset.refl _

mutual

theorem Reduces.free_subset (hrules : rules.Fitting known) :
    ∀ {t u : Term}, rules.Reduces t u → t.Over known → u.free ⊆ t.free
  | _, _, .here h, ht => h.free_subset hrules ht
  | _, _, .fn h, ht =>
    append_subset_append (h.free_subset hrules (Term.over_app.1 ht).1) (List.Subset.refl _)
  | _, _, .arg h, ht =>
    append_subset_append (List.Subset.refl _) (h.free_subset hrules (Term.over_app.1 ht).2)
  | _, _, .body h, ht => List.filter_subset _ (h.free_subset hrules (Term.over_lam.1 ht))
  | _, _, .ascribed h, ht => h.free_subset hrules (Term.over_ann.1 ht)
  | _, _, .fields h, ht => h.free_subset hrules (Term.over_ctor.1 ht).2
  | _, _, .scrutinee h, ht =>
    append_subset_append (h.free_subset hrules (Term.over_elim.1 ht).2.1) (List.Subset.refl _)
  | _, _, .operands h, ht =>
    append_subset_append (List.Subset.refl _) (h.free_subset hrules (Term.over_elim.1 ht).2.2)
  | _, _, .prim h, ht => h.free_subset hrules (Term.over_prim.1 ht)
  | _, _, .tuple h, ht => h.free_subset hrules (Term.over_tuple.1 ht)
  | _, _, .proj h, ht => h.free_subset hrules (Term.over_proj.1 ht)

theorem ReducesOne.free_subset (hrules : rules.Fitting known) :
    ∀ {ts us : List Term}, rules.ReducesOne ts us →
    (∀ t ∈ ts, t.Over known) → freeAll us ⊆ freeAll ts
  | _, _, .head h, hts =>
    append_subset_append (h.free_subset hrules (List.forall_mem_cons.1 hts).1) (List.Subset.refl _)
  | _, _, .tail h, hts =>
    append_subset_append (List.Subset.refl _) (h.free_subset hrules (List.forall_mem_cons.1 hts).2)

end

theorem Reaches.free_subset (h : rules.Reaches t u) (hrules : rules.Fitting known)
    (ht : t.Over known) : u.free ⊆ t.free := by
  induction h with
  | refl => exact List.Subset.refl _
  | tail hreaches hstep ih =>
    exact List.Subset.trans (hstep.free_subset hrules (hrules.covered.reaches ht hreaches)) ih

end Rules

namespace Evaluator

variable {ctx : Context} {typeNames : List Name} {r : Evaluator}

theorem reaches_of_ok (h : ctx.WellFormed)
    (hrules : r.rules = (Rules.ofContext ctx).loadAll typeNames) (ht : t.Over ctx.Saturates)
    (hu : (r.whnf t).1 = .ok u ∨ (r.normalize t).1 = .ok u) : r.rules.inForce.Reaches t u := by
  have hover : r.rules.Over ctx.Saturates :=
    hrules ▸ h.over_loadAll (fun _ => Context.saturates_of_admits) typeNames
  rcases hu with hu | hu
  · obtain ⟨k, hk⟩ := fst_ask_eq_ok_iff.1 hu
    exact (Rules.runs_inForce hover ht hk).reaches
  · obtain ⟨k, hk⟩ := fst_ask_eq_ok_iff.1 hu
    exact (Rules.normalizes_inForce hover ht hk).reaches

/-- Where each operation of the context has all its arguments, what a term is evaluated to has no
free variables that the term has not, and again each operation has all its arguments, whatever
representations are loaded. A closed program stays closed. -/
theorem free_of_evaluation (h : ctx.Reachable)
    (hrules : r.rules = (Rules.ofContext ctx).loadAll typeNames)
    (ht : t.Over ctx.Saturates) (hu : (r.whnf t).1 = .ok u ∨ (r.normalize t).1 = .ok u) :
    (∀ x ∈ u.free, x ∈ t.free) ∧ u.Over ctx.Saturates ∧
    (t.isClosed = true → u.isClosed = true) := by
  have hreaches := reaches_of_ok h.wellFormed hrules ht hu
  have hfit : r.rules.inForce.Fitting ctx.Saturates :=
    hrules ▸ h.wellFormed.fitting_loadAll (fun _ => Context.saturates_of_admits)
      (fun _ => id) typeNames
  have hfree : u.free ⊆ t.free := hreaches.free_subset hfit ht
  refine ⟨fun x hx => hfree hx, hfit.covered.reaches ht hreaches, fun hclosed => ?_⟩
  rw [Term.isClosed, List.isEmpty_iff] at hclosed ⊢
  exact List.subset_nil.1 (hclosed ▸ hfree)

theorem constantLook_free :
    ∃ u, (Context.looking.normalize (Context.constantLook "x" "y")).1 = .ok u ∧
      (∀ x ∈ u.free, x ∈ (Context.constantLook "x" "y").free) ∧ u.Over Context.withLooks.Saturates ∧
      ((Context.constantLook "x" "y").isClosed = true → u.isClosed = true) := by
  have hrules (ctx : Context) (n : Nat) : ((Evaluator.start ctx n).load "T").rules =
      (Rules.ofContext ctx).loadAll ["T"] := rfl
  exact ⟨_, Context.normalize_constantLook, free_of_evaluation Context.withLooks_reachable
    (hrules _ 40) Context.over_constantLook
    (.inr Context.normalize_constantLook)⟩

end Evaluator

end ClosedTypes
