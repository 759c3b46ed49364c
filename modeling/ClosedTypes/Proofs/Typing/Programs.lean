import ClosedTypes.Proofs.Context.Reachable
import ClosedTypes.Proofs.Typing.Completeness
import ClosedTypes.Proofs.Typing.Rollover
/-!
Accepted programs: what the checker infers for a whole term holds by the typing rules, and the rules
keep the barrier around declared types. What is inferred is principal.
-/

namespace ClosedTypes

variable {ctx : Context} {t s : Term} {ty : Ty} {locals : Locals}

theorem Checker.formed_of_inferType (hctx : ctx.Shaped) (h : inferType ctx t = .ok ty) :
    ty.Formed ctx := by
  obtain ⟨u, c', hj, -, rfl⟩ := inferType_eq_ok_iff.1 h
  obtain ⟨hw, hs⟩ := sound hctx t (valid_initial ctx) Mode.within_infer hj
  exact (hs.valid.zonk hw).formed

/-- `t` looks into `s`. Of the operands of a choice that is only the condition. -/
inductive Term.LooksInto : Term → Term → Prop where
  | operand {op args s} : op ≠ .ite → s ∈ args → LooksInto (.prim op args) s
  | condition {s t e} : LooksInto (.prim .ite [s, t, e]) s
  | tuple {s i} : LooksInto (.proj s i) s
  | scrutinee {e s args} : LooksInto (.elim e s args) s

def Barrier.Admits (ctx : Context) (t : Term) : Ty → Prop
  | .prim _ => True
  | .tuple _ => True
  | .const c _ => ∃ e s args d, t = .elim e s args ∧ ctx.eliminator e = .ok d ∧ d.owner = c
  | _ => False

theorem HasTypes.exists_of_mem {ts : List Term} {types : List Ty} (h : HasTypes ctx locals ts types)
    (ht : t ∈ ts) :
    ∃ ty ∈ types, HasType ctx locals t ty := by
  induction ts generalizing types with
  | nil => cases ht
  | cons u us ih =>
    cases h with
    | cons hu hus =>
      rcases List.mem_cons.1 ht with rfl | ht
      · exact ⟨_, List.mem_cons_self, hu⟩
      · obtain ⟨ty, hty, h⟩ := ih hus ht
        exact ⟨ty, List.mem_cons_of_mem _ hty, h⟩

theorem HasType.admits (hctx : ctx.Shaped) (h : HasType ctx locals t ty) (hs : t.LooksInto s) :
    ∃ u, HasType ctx locals s u ∧ Barrier.Admits ctx t u := by
  cases hs with
  | operand hop hmem =>
    cases h with
    | prim _ _ hargs =>
      obtain ⟨u, hu, h⟩ := hargs.exists_of_mem hmem
      rw [List.eq_of_mem_replicate hu] at h
      exact ⟨_, h, trivial⟩
    | eq ha hb =>
      rcases List.mem_cons.1 hmem with rfl | hmem
      · exact ⟨_, ha, trivial⟩
      · rw [List.mem_singleton.1 hmem]
        exact ⟨_, hb, trivial⟩
    | ite _ _ _ => exact absurd rfl hop
  | condition =>
    cases h with
    | prim _ hite _ => exact absurd rfl hite
    | ite hc _ _ => exact ⟨_, hc, trivial⟩
  | tuple =>
    cases h with
    | proj ht _ => exact ⟨_, ht, trivial⟩
  | @scrutinee e s args =>
    cases h with
    | @elim _ _ _ _ d scrutinee m hd hscrutinee hs _ =>
      obtain ⟨params, hshape⟩ := hctx.eliminator hd
      rw [hshape.scrutinee, Option.some.injEq] at hscrutinee
      subst hscrutinee
      refine ⟨_, hs, ?_⟩
      rw [Ty.subst_eq_bind, Ty.bind_const]
      exact ⟨e, s, args, d, rfl, hd, rfl⟩

/-- A type that is inferred for a term is one by the typing rules, whatever is left open in it
being integers, and uses declared types at their arities. Under these rules no term looks into a
value of a declared type, except with the type's own eliminators. -/
theorem Checker.typed_of_inferType (h : ctx.Reachable) (hn : (infer ctx t).metavars ≤ UInt32.size)
    (ht : inferType ctx t = .ok ty) :
    HasType ctx [] t (ty.fill fun _ => .prim .int) ∧ ty.Formed ctx ∧
      ∀ locals u v s, HasType ctx locals u v → u.LooksInto s → ∃ w, HasType ctx locals s w ∧
      Barrier.Admits ctx u w := by
  have hshaped := h.wellFormed.shaped
  exact ⟨hasType_of_inferType hshaped hn ht fun _ => ⟨.int, rfl⟩, formed_of_inferType hshaped ht,
    fun _ _ _ _ hu hs => hu.admits hshaped hs⟩

def comparison : Term :=
  .lam "x" none
    (.lam "y" none (.tuple [.prim .eq [.var "x", .var "y"], .elim "Not" (.ctor "True" []) []]))

theorem comparison_typed :
    inferType (Context.empty.commit Context.booleans).2 comparison =
        .ok (.arrow (.metavar 1) (.arrow (.metavar 1) (.tuple [.prim .bool, .const "Bool" []]))) ∧
      HasType (Context.empty.commit Context.booleans).2 [] comparison
        (.arrow (.prim .int) (.arrow (.prim .int) (.tuple [.prim .bool, .const "Bool" []]))) := by
  have ht : inferType (Context.empty.commit Context.booleans).2 comparison =
      .ok (.arrow (.metavar 1) (.arrow (.metavar 1) (.tuple [.prim .bool, .const "Bool" []]))) :=
        rfl
  have hn : (Checker.infer (Context.empty.commit Context.booleans).2 comparison).metavars ≤
      UInt32.size := by
    show 2 ≤ UInt32.size
    decide
  exact ⟨ht, (Checker.typed_of_inferType (.commit .empty Context.booleans_staged) hn ht).1⟩

/-- With `2 ^ 32 - 1` unused functions `crowded` passes, though it applies an integer. -/
theorem crowded_untyped : Context.empty.Reachable ∧
    ∃ ty, inferType .empty (crowded 4294967295) = .ok ty ∧
      ¬HasType .empty [] (crowded 4294967295) (ty.fill fun _ => .prim .int) := by
  obtain ⟨types, htypes⟩ := Checker.inferType_crowded .empty (n := 4294967295) rfl
  refine ⟨.empty, _, htypes, ?_⟩
  rw [Ty.fill, Ty.bind_arrow, Ty.bind_tuple]
  exact Checker.not_hasType_crowded

/-- For a term without projections that has a type by the rules the checker infers one, and every
type that the term has is an instance of it. -/
theorem Checker.principal_of_hasType (h : ctx.Reachable) (hproj : t.hasProjection = false)
    (hn : (infer ctx t).metavars ≤ UInt32.size) (ht : HasType ctx [] t ty) :
    ∃ principal, inferType ctx t = .ok principal ∧
    HasType ctx [] t (principal.fill fun _ => .prim .int) ∧
      ∀ type, HasType ctx [] t type → ∃ σ, principal.fill σ = type := by
  have hshaped := h.wellFormed.shaped
  obtain ⟨principal, -, hinfer, -⟩ := inferType_of_hasType hshaped hproj hn ht
  refine ⟨principal, hinfer, hasType_of_inferType hshaped hn hinfer fun _ => ⟨.int, rfl⟩,
    fun type htype => ?_⟩
  -- the checker is a function, so that each type of the term leads to the same answer
  obtain ⟨answer, σ, hanswer, hinstance⟩ := inferType_of_hasType hshaped hproj hn htype
  cases hinfer.symm.trans hanswer
  exact ⟨σ, hinstance⟩

theorem comparison_principal :
    HasType (Context.empty.commit Context.booleans).2 [] comparison
        (.arrow (.prim .bool) (.arrow (.prim .bool) (.tuple [.prim .bool, .const "Bool" []]))) ∧
      ∃ principal, inferType (Context.empty.commit Context.booleans).2 comparison = .ok principal ∧
        HasType (Context.empty.commit Context.booleans).2 [] comparison (principal.fill fun _ =>
          .prim .int) ∧
        ∀ type, HasType (Context.empty.commit Context.booleans).2 [] comparison type →
        ∃ σ, principal.fill σ = type := by
  have htrue : HasType (Context.empty.commit Context.booleans).2
      [("y", .prim .bool), ("x", .prim .bool)] (.ctor "True" [])
      (.const "Bool" []) := .ctor (d := ⟨"True", .const "Bool" [], "Bool"⟩) .empty rfl .nil
  have hnot : HasType (Context.empty.commit Context.booleans).2
      [("y", .prim .bool), ("x", .prim .bool)]
      (.elim "Not" (.ctor "True" []) []) (.const "Bool" []) :=
    .elim (d := ⟨"Not", .arrow (.const "Bool" []) (.const "Bool" []), "Bool", none⟩) .empty
      rfl rfl htrue .nil
  have ht : HasType (Context.empty.commit Context.booleans).2 [] comparison
      (.arrow (.prim .bool) (.arrow (.prim .bool) (.tuple [.prim .bool, .const "Bool" []]))) :=
    .lam (.lam (.tuple (.cons (.eq (.var rfl) (.var rfl)) (.cons hnot .nil))))
  have hn : (Checker.infer (Context.empty.commit Context.booleans).2 comparison).metavars ≤
      UInt32.size := by
    show 2 ≤ UInt32.size
    decide
  exact ⟨ht, Checker.principal_of_hasType (.commit .empty Context.booleans_staged) rfl hn ht⟩

end ClosedTypes
