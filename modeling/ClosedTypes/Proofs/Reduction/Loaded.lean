import ClosedTypes.Proofs.Context.Instances
import ClosedTypes.Proofs.Reduction.Canonicity
import ClosedTypes.Proofs.Typing.Backed
/-!
Canonicity with representations loaded. Implementations are checked one at a time, each at the
signature that has its own type backed; once the others are backed as well, all of them and the
equations that are left have their types by the backed signatures, and those are the types that
evaluation keeps. When a term has been normalized, nothing is left in it of the types that were
loaded.
-/

namespace ClosedTypes

variable {ctx : Context} {typeNames : List Name} {β : Name → Option Backing} {env : TypeEnv}
  {t w body : Term} {ty : Ty}
  {args : List Term} {x : Name} {θ φ : Name → Ty}

def Context.backings (ctx : Context) (typeNames : List Name) (typeName : Name) : Option Backing :=
  if typeName ∈ typeNames then (ctx.representation? typeName).map (·.backing) else none

theorem Eliminator.Shaped.inhabits_binders {e : Eliminator} {c : Constructor}
    {params params' : List Name} {fields : List Term}
    (he : e.Shaped ctx params) (hc : c.Shaped ctx params') (hparams : params'.map φ = params.map θ)
    (hlen : fields.length = c.fields.length)
    (hfields : ∀ p ∈ fields.zip c.fields, Inhabits (ctx.backed β) env p.1 ((p.2.backed β).inst φ))
    (hargs : ∀ p ∈ args.zip e.rest, Inhabits (ctx.backed β) env p.1 ((p.2.backed β).inst θ)) :
    ∀ p ∈ (fields ++ args).zip (e.binderTypes c),
    Inhabits (ctx.backed β) env p.1 ((p.2.backed β).inst θ) := by
  rw [he.binderTypes_eq hc, List.zip_append (by rw [List.length_map]; exact hlen),
    List.forall_mem_append]
  refine ⟨(forall_zip_map (p := fun (a : Term) (t : Ty) =>
    Inhabits (ctx.backed β) env a ((t.backed β).inst θ))).2
    fun p hp => ?_, hargs⟩
  have hfield : p.2 ∈ c.fields := (List.of_mem_zip hp).2
  have hwritten := (Checker.checkWritten_parts hc.written).1 p.2 hfield
  rw [Ty.backed_subst_params, inst_subst_params hparams]
  · exact hfields p hp
  · exact fun y hy =>
      hc.fields p.2 hfield y (Ty.mem_vars.2 (Ty.mem_varOccurrences_of_backed (Ty.mem_vars.1 hy)))
  · exact fun i => Bool.eq_false_iff.2 fun hi =>
      Bool.eq_false_iff.1 ((Checker.checkWritten_eq_ok_iff.1 hwritten).2 i)
        (Ty.mentionsMetavar_of_backed hi)

theorem Equation.Typed.inhabits {d : Equation} {e : Eliminator} {c : Constructor} {us : List Term}
    (hd : d.Typed ctx e c) (hlen : us.length = (e.binderTypes c).length)
    (hus : ∀ p ∈ us.zip (e.binderTypes c), Inhabits (ctx.backed β) env p.1
      ((p.2.backed β).inst θ)) :
    Inhabits (ctx.backed β) env (d.rhs.subst (.ofList (d.binders.zip us)))
      ((e.result.backed β).inst θ) := by
  have hrhs := (hd.type.inhabits.backed β).inst θ fun _ _ _ _ _ _ => trivial
  refine Discipline.Types.subst_zip (fun t => (t.backed β).inst θ) ?_ ?_ hlen hus
  · refine hrhs.congr fun x _ => ?_
    rw [TypeEnv.inst, TypeEnv.backed, Option.map_map]
    rfl
  · rw [hd.length, Context.length_binderTypes]

def Context.ImplementationsTyped (ctx : Context) : Prop :=
  ∀ d owner r type, .implementation d ∈ ctx.entries → Implementation.Checked ctx d owner r type →
    HasType ctx [] d.body type

theorem Inhabits.applyAll {doms : List Ty} {f : Term} (hf : Inhabits ctx env f (.arrows doms ty))
    (hlen : args.length = doms.length)
    (hargs : ∀ p ∈ args.zip doms, Inhabits ctx env p.1 p.2) :
    Inhabits ctx env (f.applyAll args) ty := by
  induction doms generalizing f args with
  | nil =>
    cases List.length_eq_zero_iff.1 hlen
    exact hf
  | cons d doms ih =>
    obtain ⟨a, args, rfl⟩ := List.exists_cons_of_length_eq_add_one hlen
    obtain ⟨ha, hargs⟩ := List.forall_mem_cons.1 hargs
    change Inhabits ctx env ((Term.app f a).applyAll args) ty
    exact ih (.app hf ha) (Nat.succ.inj hlen) hargs

theorem Inhabits.applyAll_signature {signature : Ty}
    (hbody : Inhabits ctx env body ((signature.backed β).inst θ))
    (hlen : args.length = signature.doms.length)
    (hargs : ∀ p ∈ args.zip signature.doms, Inhabits ctx env p.1 ((p.2.backed β).inst θ)) :
    Inhabits ctx env (body.applyAll args) ((signature.result.backed β).inst θ) := by
  have hsignature : (signature.backed β).inst θ =
      .arrows (signature.doms.map fun t => (t.backed β).inst θ)
          ((signature.result.backed β).inst θ) := by
    conv => lhs; rw [← (signature.backed β).arrows_doms_result, Ty.doms_backed, Ty.result_backed]
    rw [Ty.inst, Ty.bind_arrows, List.map_map]
    rfl
  rw [hsignature] at hbody
  exact hbody.applyAll (by rw [List.length_map]; exact hlen) (forall_zip_map.2 hargs)

namespace Context.WellFormed

variable (h : ctx.WellFormed)

include h

theorem backings_eq_none {owner : Name}
    (hfree : ((Rules.ofContext ctx).loadAll typeNames).implementation? x = none)
    (hx : ctx.owner? x = some owner) : ctx.backings typeNames owner = none := by
  unfold backings
  split
  · rename_i hloaded
    refine Option.map_eq_none_iff.2 (Option.eq_none_iff_forall_ne_some.2 fun r hr => ?_)
    obtain ⟨body, hbody⟩ := h.implementation?_loadAll_eq_some hloaded hr hx
    rw [hfree] at hbody
    cases hbody
  · rfl

theorem inhabits_body (htyped : ctx.ImplementationsTyped) {owner : Name} {signature : Ty}
    (howner : ctx.owner? x = some owner)
    (hsignature : ∀ backing, Validation.signatureOnBacking ctx x backing =
      .ok (signature.substConst owner backing))
    (hbody : ((Rules.ofContext ctx).loadAll typeNames).implementation? x = some body)
    (θ : Name → Ty) :
    Inhabits (ctx.backed (ctx.backings typeNames)) env body
      ((signature.backed (ctx.backings typeNames)).inst θ) := by
  obtain ⟨hmem, typeName, hloaded, r, type, hd⟩ := h.exists_of_implementation?_loadAll hbody
  cases hd.operation.symm.trans howner
  cases hd.signature.symm.trans (hsignature r.backing.toTy)
  have hbacking : ctx.backings typeNames owner = some r.backing := by
    rw [backings, if_pos hloaded, hd.represented]
    rfl
  have htype :=
    ((htyped _ _ _ _ hmem hd).inhabits.backed (ctx.backings typeNames)).inst θ fun _ _ _ _ _ _ =>
      trivial
  rw [Ty.backed_substConst hbacking] at htype
  -- the body was checked without assumptions, so that it has no free variables
  refine htype.congr fun y hy => ?_
  obtain ⟨u, hu⟩ := htype.exists_of_mem_free hy
  cases hu

theorem keeps_loadAll (heq : ctx.EquationsTyped) (himpl : ctx.ImplementationsTyped)
    (typeNames : List Name) :
    ((Rules.ofContext ctx).loadAll typeNames).inForce.Keeps .lax
      (ctx.backed (ctx.backings typeNames)) where
  equation := fun {env ty e c fields args d} hd ht => by
    obtain ⟨hfree, hd⟩ := Rules.equation?_inForce_loadAll.1 hd
    obtain ⟨hmem, rfl, rfl⟩ := h.filed.equation?_eq_some_iff.1 hd
    obtain ⟨e, c, htyped⟩ := heq d hmem
    obtain ⟨params, he⟩ := h.shaped.eliminator htyped.eliminator
    obtain ⟨params', hc⟩ := h.shaped.constructor htyped.constructor
    have hnone := h.backings_eq_none hfree (owner?_eq_some_iff.2 (.inr ⟨e, htyped.eliminator, rfl⟩))
    obtain ⟨e', scrutinee, θ, he', hscrutinee, hs, hlen, hargs, rfl⟩ := ht.elim_backed_inv
    cases he'.symm.trans htyped.eliminator
    cases hscrutinee.symm.trans he.scrutinee
    obtain ⟨c', φ, hc', hfields, hbinders, hresult⟩ := hs.ctor_backed_inv
    cases hc'.symm.trans htyped.constructor
    -- neither side of the equation belongs to a loaded type, so that the parameters are still there
    -- to be compared
    rw [hc.result, htyped.owner, Ty.backed_const_vars hnone, Ty.backed_const_vars hnone] at hresult
    simp only [Ty.inst, Ty.bind_const, List.map_map, Ty.const.injEq, true_and] at hresult
    refine htyped.inhabits ?_ (he.inhabits_binders hc hresult.symm hfields hbinders hargs)
    rw [List.length_append, length_binderTypes, hfields, hlen]
  constructor := fun {env ty c args body} hbody ht => by
    obtain ⟨d, θ, hd, hlen, hargs, rfl⟩ := ht.ctor_backed_inv
    have hsignature (backing : Ty) : Validation.signatureOnBacking ctx c backing =
        .ok (d.signature.substConst d.owner backing) :=
      Validation.signatureOnBacking_eq_ok_iff.2 (.inl ⟨d, hd, rfl⟩)
    have howner : ctx.owner? c = some d.owner := owner?_eq_some_iff.2 (.inl ⟨d, hd, rfl⟩)
    exact (h.inhabits_body himpl howner hsignature hbody θ).applyAll_signature hlen hargs
  eliminator := fun {env ty e s args body} hbody ht => by
    obtain ⟨d, scrutinee, θ, hd, hscrutinee, hs, hlen, hargs, rfl⟩ := ht.elim_backed_inv
    have hsignature (backing : Ty) : Validation.signatureOnBacking ctx e backing =
        .ok (d.signature.substConst d.owner backing) :=
      Validation.signatureOnBacking_eq_ok_iff.2 (.inr ⟨d, hd, rfl⟩)
    have howner : ctx.owner? e = some d.owner := owner?_eq_some_iff.2 (.inr ⟨d, hd, rfl⟩)
    have hdoms : d.signature.doms = scrutinee :: d.rest := List.eq_cons_of_mem_head? hscrutinee
    refine (h.inhabits_body himpl howner hsignature hbody θ).applyAll_signature ?_ ?_
    · rw [hdoms, List.length_cons, List.length_cons, hlen]
    · rw [hdoms, List.zip_cons_cons]
      exact List.forall_mem_cons.2 ⟨hs, hargs⟩

theorem covers_loadAll :
    ((Rules.ofContext ctx).loadAll typeNames).Covers ctx (ctx.backed (ctx.backings typeNames)) where
  constructor := fun {c args ty} hfree hw => by
    obtain ⟨d, θ, hd, hlen, -, rfl⟩ := hw.ctor_backed_inv
    obtain ⟨params, hshape⟩ := h.shaped.constructor hd
    have hnone := h.backings_eq_none hfree (owner?_eq_some_iff.2 (.inl ⟨d, hd, rfl⟩))
    rw [hshape.result, Ty.backed_const_vars hnone, Ty.inst, Ty.bind_const]
    exact h.demands_ctor hd hlen _
  eliminator := fun {e s args ty} hfree hw hs => by
    obtain ⟨d, scrutinee, θ, hd, hscrutinee, htyped, -, -, -⟩ := hw.elim_backed_inv
    obtain ⟨params, hshape⟩ := h.shaped.eliminator hd
    have hnone := h.backings_eq_none hfree (owner?_eq_some_iff.2 (.inr ⟨d, hd, rfl⟩))
    cases hscrutinee.symm.trans hshape.scrutinee
    rw [Ty.backed_const_vars hnone] at htyped
    obtain ⟨c, fields, -, rfl, hc, -⟩ := hs _ htyped
    rw [Rules.contract?, Option.isSome_map, Rules.context_loadAll]
    exact h.isSome_equation? hd hc

end Context.WellFormed

/-- No check made so many metavariables that their numbers came up again: those of the
implementations neither. -/
structure FullyNumbered (ctx : Context) (t : Term) : Prop extends Numbered ctx t where
  implementations : ∀ d owner r type, .implementation d ∈ ctx.entries →
    Implementation.Checked ctx d owner r type →
    Checker.metavarsUnder ctx [] d.body type ≤ UInt32.size

theorem FullyNumbered.of_usage (h : ctx.WellFormed) (ht : inferType ctx t = .ok ty)
    (hterm : t.usage ctx ≤ UInt32.size)
    (hequations : ∀ d, .equation d ∈ ctx.entries → d.rhs.usage ctx ≤ UInt32.size)
    (himplementations : ∀ d, .implementation d ∈ ctx.entries → d.body.usage ctx ≤ UInt32.size) :
    FullyNumbered ctx t where
  toNumbered := .of_usage h ht hterm hequations
  implementations d _ _ _ hmem hd :=
    (Checker.metavarsUnder_le hd.body).trans (himplementations d hmem)

theorem FullyNumbered.implementationsTyped (hn : FullyNumbered ctx t) (h : ctx.WellFormed) :
    ctx.ImplementationsTyped := by
  intro d owner r type hmem hd
  have hassumptions : ∀ p ∈ ([] : List (Name × Ty)), Checker.checkWritten ctx p.2 = .ok () := nofun
  have hwritten := Validation.written_signatureOnBacking h.shaped hd.signature
  exact Checker.hasType_of_checkUnder h.shaped hassumptions hwritten
    (hn.implementations d owner r type hmem hd) hd.body

theorem Rules.demands_of_whnf_loadAll {n k : Nat} (h : ctx.WellFormed) (hn : FullyNumbered ctx t)
    (ht : inferType ctx t = .ok ty)
    (hw : (((Rules.ofContext ctx).loadAll typeNames).whnf n t).1 = some (w, k)) :
    (ty.backed (ctx.backings typeNames)).Demands ctx w := by
  have htype : HasType ctx [] t (ty.fill fun _ => .prim .int) :=
    Checker.hasType_of_inferType h.shaped hn.term ht fun _ => ⟨.int, rfl⟩
  have hruns : ((Rules.ofContext ctx).loadAll typeNames).inForce.Runs t w :=
    runs_inForce (h.over_loadAll (fun _ => id) typeNames)
      (Checker.inScope_of_inferType h.shaped ht).uses hw
  have hkeeps := h.keeps_loadAll (hn.equationsTyped h) (hn.implementationsTyped h) typeNames
  have hinhabits :=
    Discipline.Types.runs hkeeps (htype.inhabits.backed (ctx.backings typeNames)) hruns
  rw [Ty.backed_bind] at hinhabits
  exact ((stuck_of_whnf hw).demanded h.covers_loadAll hinhabits).of_fill

/-- Evaluation with representations loaded, started on a term with a type, stops at the form that
the type demands once the loaded types in it are replaced by what is behind them, or runs out of
its budget. -/
theorem Evaluator.canonical_of_whnf_loadAll {r : Evaluator} (h : ctx.Reachable)
    (hrules : r.rules = (Rules.ofContext ctx).loadAll typeNames)
    (hn : FullyNumbered ctx t) (ht : inferType ctx t = .ok ty) (hw : (r.whnf t).1 = .ok w) :
    (ty.backed (ctx.backings typeNames)).Demands ctx w := by
  obtain ⟨k, hwhnf⟩ := Evaluator.fst_ask_eq_ok_iff.1 hw
  rw [hrules] at hwhnf
  exact Rules.demands_of_whnf_loadAll h.wellFormed hn ht hwhnf

theorem inferType_mk :
    inferType Context.withLooks (.ctor "Mk" [.int 2]) = .ok (.const "T" []) := by
  rw [Context.withLooks_eq]
  rfl

theorem backed_mk :
    (Ty.const "T" []).backed (Context.withLooks.backings ["T"]) = .prim .int := by
  rw [Context.withLooks_eq]
  cbv

theorem whnf_mk : (((Evaluator.start Context.withLooks 10).load "T").whnf (.ctor "Mk" [.int 2])).1 =
    .ok (.int 2) := by
  rw [Context.withLooks_eq]
  cbv

theorem fullyNumbered_mk : FullyNumbered Context.withLooks (.ctor "Mk" [.int 2]) := by
  have hentries : Context.withLooks.entries = Context.looks ++ Context.backedLooks := by
    rw [Context.withLooks_eq]
    rfl
  refine .of_usage Context.withLooks_reachable.wellFormed inferType_mk (by decide +kernel)
    (fun d hmem => ?_) fun d hmem => ?_
  · have hd : d = ⟨"Look", "Mk", ["n", "f"], Context.atTwo (.var "n")⟩ := by
      rw [hentries] at hmem
      simpa [Context.looks, Context.backedLooks] using hmem
    rw [hd]
    decide +kernel
  · have hd : d = ⟨"Mk", .lam "n" (some (.prim .int)) (.var "n")⟩ ∨
        d = ⟨"Look", .lam "x" (some (.prim .int))
        (.lam "f" (some (.arrow (.prim .int) (.prim .int)))
            (Context.atTwo (.prim .add [.var "x", .int 0])))⟩ := by
      rw [hentries] at hmem
      simpa [Context.looks, Context.backedLooks] using hmem
    rcases hd with rfl | rfl <;> decide +kernel

theorem Evaluator.mk_canonical :
    (((start Context.withLooks 10).load "T").whnf (.ctor "Mk" [.int 2])).1 = .ok (.int 2) ∧
      (Ty.const "T" []).backed (Context.withLooks.backings ["T"]) = .prim .int ∧
      (Ty.prim .int).Demands Context.withLooks (.int 2) := by
  have main {ctx : Context} (h : ctx.Reachable) (hn : FullyNumbered ctx (.ctor "Mk" [.int 2]))
      (ht : inferType ctx (.ctor "Mk" [.int 2]) = .ok (.const "T" []))
      (hw : (((start ctx 10).load "T").whnf (.ctor "Mk" [.int 2])).1 = .ok (.int 2))
      (hbacked : (Ty.const "T" []).backed (ctx.backings ["T"]) = .prim .int) :
          (Ty.prim .int).Demands ctx (.int 2) := by
    rw [← hbacked]
    exact canonical_of_whnf_loadAll h rfl hn ht hw
  exact ⟨whnf_mk, backed_mk, main Context.withLooks_reachable fullyNumbered_mk inferType_mk
    whnf_mk backed_mk⟩

theorem Evaluator.strayCall_stuck_load : Context.withLooks.Reachable ∧
    (∃ d, Context.withLooks.representation? "T" = some d) ∧
      inferType Context.withLooks (strayCall 4294967295) = .ok (.prim .int) ∧
        ∃ w, (((start Context.withLooks 3).load "T").whnf (strayCall 4294967295)).1 = .ok w ∧
          ¬((Ty.prim .int).backed (Context.withLooks.backings ["T"])).Demands Context.withLooks w :=
  ⟨Context.withLooks_reachable, ⟨_, Context.representation?_looks⟩,
    Checker.inferType_strayCall rfl, _, fst_ask_eq_ok_iff.2 ⟨0, Rules.whnf_strayCall⟩, nofun⟩

/-- A normal form has none of the operations of the types whose representations were loaded,
neither under binders nor in parts where evaluation got stuck. -/
theorem Evaluator.not_mem_uses_of_normalize {r : Evaluator} {u : Term} (h : ctx.Reachable)
    (hrules : r.rules = (Rules.ofContext ctx).loadAll typeNames)
    (hrepresented : ∀ typeName ∈ typeNames, ∃ d, ctx.representation? typeName = some d)
    (hu : (r.normalize t).1 = .ok u) :
    ∀ typeName ∈ typeNames, ∀ op ∈ ctx.operations typeName, ∀ n, .constructor op n ∉ u.uses ∧
    .eliminator op n ∉ u.uses := by
  intro typeName hloaded op hop n
  obtain ⟨d, hd⟩ := hrepresented typeName hloaded
  have hwf := h.wellFormed
  obtain ⟨body, hbody⟩ :=
    hwf.implementation?_loadAll_eq_some hloaded hd (hwf.filed.mem_operations.1 hop)
  have hover := (Evaluator.normalizes_of_normalize hu).over_unimplemented
  rw [hrules] at hover
  have himplemented : ((Rules.ofContext ctx).loadAll typeNames).implementation? op ≠ none := by
    rw [hbody]
    exact Option.some_ne_none body
  exact ⟨fun huse => himplemented (hover _ huse), fun huse => himplemented (hover _ huse)⟩

def openLook : Term := .lam "g" none (.elim "Look" (.ctor "Mk" [.int 3]) [.var "g"])

def stuckLook : Term :=
  .lam "g" none
    (.prim .ite [.prim .eq [.app (.var "g") (.int 3), .app (.var "g") (.int 2)], .int 1, .int 0])

theorem normalize_openLook :
    (((Evaluator.start Context.withLooks 20).load "T").normalize openLook).1 = .ok stuckLook := by
  rw [Context.withLooks_eq]
  cbv

theorem Evaluator.openLook_removed :
    (((start Context.withLooks 20).load "T").normalize openLook).1 = .ok stuckLook ∧
    "Look" ∈ Context.withLooks.operations "T" ∧ .eliminator "Look" 1 ∈ openLook.uses ∧
    .eliminator "Look" 1 ∉ stuckLook.uses := by
  have main {ctx : Context} {d : Representation} (h : ctx.Reachable)
      (hd : ctx.representation? "T" = some d)
      (hop : "Look" ∈ ctx.operations "T")
        (hu : (((start ctx 20).load "T").normalize openLook).1 = .ok stuckLook) :
      .eliminator "Look" 1 ∉ stuckLook.uses := by
    have hrepresented : ∀ typeName ∈ ["T"], ∃ d, ctx.representation? typeName = some d :=
      List.forall_mem_singleton.2 ⟨d, hd⟩
    exact (not_mem_uses_of_normalize h rfl hrepresented hu "T" List.mem_cons_self "Look" hop 1).2
  have hoperations : Context.withLooks.operations "T" = ["Mk", "Look"] := by
    rw [Context.withLooks_eq]
    rfl
  have hop : "Look" ∈ Context.withLooks.operations "T" := by
    rw [hoperations]
    exact List.mem_cons_of_mem _ List.mem_cons_self
  have huse : .eliminator "Look" 1 ∈ openLook.uses := List.mem_cons_self
  exact ⟨normalize_openLook, hop, huse,
    main Context.withLooks_reachable Context.representation?_looks hop normalize_openLook⟩

end ClosedTypes
