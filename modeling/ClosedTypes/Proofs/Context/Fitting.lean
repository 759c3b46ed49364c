import ClosedTypes.Proofs.Context.Conservative
import ClosedTypes.Proofs.Reduction.Uniqueness
/-!
The rules of a well-formed context fit the operations that it declares, as they are and with the
implementations of represented types.
-/

namespace ClosedTypes.Context

variable {ctx : Context} {typeName e c x : Name} {typeNames : List Name} {known : Use → Prop}
  {d : Equation} {body : Term}

/-- An operation of the context has all its arguments. Names that the context does not declare
may have any. -/
def Saturates (ctx : Context) : Use → Prop
  | .constructor c n => ∀ d, ctx.constructor c = .ok d → d.fields.length = n
  | .eliminator e n => ∀ d, ctx.eliminator e = .ok d → d.rest.length = n

theorem saturates_of_admits {use : Use} (h : ctx.Admits use) : ctx.Saturates use := by
  cases use with
  | constructor c n =>
    obtain ⟨d, hd, rfl⟩ := h
    rintro d' hd'
    cases hd.symm.trans hd'
    rfl
  | eliminator e n =>
    obtain ⟨d, hd, rfl⟩ := h
    rintro d' hd'
    cases hd.symm.trans hd'
    rfl

theorem WellFormed.free_rhs (h : ctx.WellFormed) (hd : ctx.equation? e c = some d) :
    ∀ x ∈ d.rhs.free, x ∈ d.binders := by
  obtain ⟨elim, ctor, -, -, hd⟩ := h.checked_of_equation? hd
  exact hd.free

theorem WellFormed.length_binders (h : ctx.WellFormed) {n k : Nat} (hd : ctx.equation? e c = some d)
    (he : ctx.Saturates (.eliminator e n)) (hc : ctx.Saturates (.constructor c k)) :
    d.binders.length = k + n := by
  obtain ⟨elim, ctor, helim, hctor, hd⟩ := h.checked_of_equation? hd
  rw [hd.length, hc ctor hctor, he elim helim]

theorem WellFormed.fitting_ofContext (h : ctx.WellFormed) :
    (Rules.ofContext ctx).Fitting ctx.Admits where
  closed := ⟨h.free_rhs, fun hbody => by cases hbody⟩
  covered := h.over_ofContext
  apart _ := ⟨rfl, rfl⟩
  arity hd he hc := h.length_binders hd (saturates_of_admits he) (saturates_of_admits hc)

theorem Filed.mem_operations (h : ctx.Filed) :
    x ∈ ctx.operations typeName ↔ ctx.owner? x = some typeName := by
  have rearrange {p q r : Prop} : p ∧ q ∧ r ↔ (p ∧ r) ∧ q := by rw [and_comm (a := q), and_assoc]
  unfold operations
  rw [List.mem_append, h.mem_constructors, h.mem_eliminators, owner?_eq_some_iff]
  simp only [h.constructor_eq_ok_iff, h.eliminator_eq_ok_iff, rearrange]

theorem WellFormed.exists_of_implementation?_loadAll (h : ctx.WellFormed)
    (hbody : ((Rules.ofContext ctx).loadAll typeNames).implementation? x = some body) :
    .implementation ⟨x, body⟩ ∈ ctx.entries ∧
      ∃ typeName ∈ typeNames, ∃ r signature, Implementation.Checked ctx
        ⟨x, body⟩ typeName r signature := by
  obtain ⟨typeName, hloaded, hx, d, hd, rfl⟩ := Rules.implementation?_loadAll_ofContext.1 hbody
  obtain ⟨hmem, rfl⟩ := h.filed.implementation?_eq_some_iff.1 hd
  obtain ⟨owner, r, signature, hd⟩ := h.implementations d hmem
  cases (h.filed.mem_operations.1 hx).symm.trans hd.operation
  exact ⟨hmem, typeName, hloaded, r, signature, hd⟩

theorem WellFormed.implementation?_loadAll_eq_some (h : ctx.WellFormed) {r : Representation}
    (hloaded : typeName ∈ typeNames)
    (hr : ctx.representation? typeName = some r) (hx : ctx.owner? x = some typeName) :
    ∃ body, ((Rules.ofContext ctx).loadAll typeNames).implementation? x = some body := by
  obtain ⟨hcomplete, rfl⟩ := complete_of_representation? h hr
  have hop := h.filed.mem_operations.2 hx
  obtain ⟨body, hbody⟩ := hcomplete.implemented x hop
  exact ⟨body, Rules.implementation?_loadAll_ofContext.2
    ⟨_, hloaded, hop, ⟨x, body⟩, h.filed.implementation?_eq_some_iff.2 ⟨hbody, rfl⟩, rfl⟩⟩

theorem WellFormed.fitting_loadAll (h : ctx.WellFormed)
    (hadmits : ∀ use, ctx.Admits use → known use)
    (hknown : ∀ use, known use → ctx.Saturates use) (typeNames : List Name) :
    ((Rules.ofContext ctx).loadAll typeNames).inForce.Fitting known where
  closed :=
    { rhs := fun hd => h.free_rhs (Rules.equation?_inForce_loadAll.1 hd).2
      body := fun hbody => by
        obtain ⟨-, typeName, -, r, signature, hd⟩ := h.exists_of_implementation?_loadAll hbody
        refine List.eq_nil_iff_forall_not_mem.2 fun x hx => ?_
        obtain ⟨p, hp, -⟩ := (Checker.inScope_of_checkUnder h.shaped hd.body).free x hx
        exact absurd hp List.not_mem_nil }
  covered := (h.over_loadAll hadmits typeNames).inForce
  -- a type has all its operations implemented or none, and those of an equation are of one type
  apart := fun {e c d} hd => by
    obtain ⟨himpl, hd⟩ := Rules.equation?_inForce_loadAll.1 hd
    refine ⟨himpl, Option.eq_none_iff_forall_ne_some.2 fun body hbody => ?_⟩
    obtain ⟨-, typeName, hloaded, r, signature, himplemented⟩ :=
      h.exists_of_implementation?_loadAll hbody
    obtain ⟨elim, ctor, helim, hctor, hd⟩ := h.checked_of_equation? hd
    have howner : ctx.owner? c = some elim.owner :=
      owner?_eq_some_iff.2 (.inl ⟨ctor, hctor, hd.owner⟩)
    cases howner.symm.trans himplemented.operation
    obtain ⟨body', hbody'⟩ := h.implementation?_loadAll_eq_some hloaded himplemented.represented
      (owner?_eq_some_iff.2 (.inr ⟨elim, helim, rfl⟩))
    cases himpl.symm.trans hbody'
  arity hd he hc :=
    h.length_binders (Rules.equation?_inForce_loadAll.1 hd).2 (hknown _ he) (hknown _ hc)

theorem WellFormed.fitting_load (h : ctx.WellFormed) (typeName : Name) :
    ((Rules.ofContext ctx).load typeName).inForce.Fitting ctx.Admits :=
  h.fitting_loadAll (fun _ => id) (fun _ => saturates_of_admits) [typeName]

end ClosedTypes.Context
