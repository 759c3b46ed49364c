import ClosedTypes.Proofs.Context.Reachable
import ClosedTypes.Proofs.Reduction.Preservation
import ClosedTypes.Proofs.Typing.Inference
import ClosedTypes.Proofs.Typing.Rollover
import ClosedTypes.Proofs.Typing.Usage
import ClosedTypes.Reduction.Evaluator
/-!
Canonicity: where the evaluation of a closed term stops, it has the form that its type demands.
Progress for terms without an assumption, on top of preservation, and the typing that the checker's
answers stand for.
-/

namespace ClosedTypes

variable {ctx : Context} {t w : Term} {ty : Ty} {args : List Term}

/-- The form that a type demands of the terms that stand for its values. What is open demands
nothing. -/
def Ty.Demands (ctx : Context) : Ty → Term → Prop
  | .const typeName _, w =>
    ∃ c args d, w = .ctor c args ∧ c ∈ ctx.constructors typeName ∧ ctx.constructor c = .ok d ∧
      args.length = d.fields.length
  | .arrow _ _, w => ∃ x dom body, w = .lam x dom body
  | .prim p, w => ∃ l, w = .lit l ∧ l.prim = p
  | .tuple types, w => ∃ elems, w = .tuple elems ∧ elems.length = types.length
  | .var _, _ => True
  | .metavar _, _ => True

theorem Ty.Demands.of_fill {σ : UInt32 → Ty} (h : (ty.fill σ).Demands ctx w) :
    ty.Demands ctx w := by
  cases ty with
  | const typeName args => exact h
  | arrow d c => exact h
  | prim p => exact h
  | tuple types =>
    rw [Ty.fill, Ty.bind_tuple] at h
    obtain ⟨elems, rfl, hlen⟩ := h
    exact ⟨elems, rfl, hlen.trans (List.length_map _)⟩
  | var x => trivial
  | metavar i => trivial

theorem exists_int_of_demands (h : (Ty.prim .int).Demands ctx w) : ∃ n, w = .int n := by
  obtain ⟨l, rfl, hl⟩ := h
  cases l with
  | int n => exact ⟨n, rfl⟩
  | bool b => cases hl

theorem exists_bool_of_demands (h : (Ty.prim .bool).Demands ctx w) : ∃ b, w = .bool b := by
  obtain ⟨l, rfl, hl⟩ := h
  cases l with
  | int n => cases hl
  | bool b => exact ⟨b, rfl⟩

theorem isSome_foldEq {p : Prim} {a b : Term} (ha : (Ty.prim p).Demands ctx a)
    (hb : (Ty.prim p).Demands ctx b) :
    (foldEq a b).isSome = true := by
  obtain ⟨l, rfl, -⟩ := ha
  obtain ⟨k, rfl, -⟩ := hb
  rfl

theorem isSome_fold {op : Operator} (heq : op ≠ .eq) (hite : op ≠ .ite)
    (hlen : args.length = op.arity)
    (hargs : ∀ a ∈ args, (Ty.prim (Checker.operandType op)).Demands ctx a) :
    (fold op args).isSome = true := by
  have ints {a b : Term} (h : ∀ t ∈ [a, b], (Ty.prim .int).Demands ctx t) : ∃ m n, a = .int m ∧
      b = .int n := by
    obtain ⟨m, hm⟩ := exists_int_of_demands (h a (by simp))
    obtain ⟨n, hn⟩ := exists_int_of_demands (h b (by simp))
    exact ⟨m, n, hm, hn⟩
  have bools {a b : Term} (h : ∀ t ∈ [a, b], (Ty.prim .bool).Demands ctx t) : ∃ m n, a = .bool m ∧
      b = .bool n := by
    obtain ⟨m, hm⟩ := exists_bool_of_demands (h a (by simp))
    obtain ⟨n, hn⟩ := exists_bool_of_demands (h b (by simp))
    exact ⟨m, n, hm, hn⟩
  cases op with
  | eq => exact absurd rfl heq
  | ite => exact absurd rfl hite
  | not =>
    obtain ⟨a, rfl⟩ := List.length_eq_one_iff.1 hlen
    obtain ⟨b, rfl⟩ := exists_bool_of_demands (hargs a (by simp))
    rfl
  | and =>
    obtain ⟨a, b, rfl⟩ := List.length_eq_two.1 hlen
    obtain ⟨m, n, rfl, rfl⟩ := bools hargs
    cases m <;> cases n <;> rfl
  | or =>
    obtain ⟨a, b, rfl⟩ := List.length_eq_two.1 hlen
    obtain ⟨m, n, rfl, rfl⟩ := bools hargs
    cases m <;> cases n <;> rfl
  | _ =>
    obtain ⟨a, b, rfl⟩ := List.length_eq_two.1 hlen
    obtain ⟨m, n, rfl, rfl⟩ := ints hargs
    rfl

theorem Context.WellFormed.isSome_equation? (h : ctx.WellFormed) {e c : Name} {d : Eliminator}
    (hd : ctx.eliminator e = .ok d) (hc : c ∈ ctx.constructors d.owner) :
    (ctx.equation? e c).isSome = true := by
  obtain ⟨hmem, rfl⟩ := h.filed.eliminator_eq_ok_iff.1 hd
  have hcount := h.coverage d hmem c hc
  rw [Context.equationCount_eq] at hcount
  have hpos : 0 < ctx.entries.countP (·.key = .equation d.name c) := by omega
  obtain ⟨entry, hentry, hkey⟩ := List.countP_pos_iff.1 hpos
  cases entry with
  | equation q =>
    have hkey : q.eliminator = d.name ∧ q.constructor = c := by simpa [Entry.key] using hkey
    rw [h.filed.equation?_eq_some_iff.2 ⟨hentry, hkey⟩]
    rfl
  | _ => simp [Entry.key] at hkey

theorem Context.WellFormed.demands_ctor (h : ctx.WellFormed) {c : Name} {d : Constructor}
    (hd : ctx.constructor c = .ok d)
    (hlen : args.length = d.fields.length) (params : List Ty) :
    (Ty.const d.owner params).Demands ctx (.ctor c args) := by
  obtain ⟨hmem, hname⟩ := h.filed.constructor_eq_ok_iff.1 hd
  exact ⟨c, args, d, rfl, h.filed.mem_constructors.2 ⟨d, hmem, rfl, hname⟩, hd, hlen⟩

/-- Where no rule goes on, a constructor has the form that is demanded of it, and the scrutinee
of an eliminator does not. Typing may be by other signatures than those of the context. -/
structure Rules.Covers (ctx typing : Context) (rules : Rules) : Prop where
  constructor : ∀ {c args ty}, rules.implementation? c = none →
    Inhabits typing .empty (.ctor c args) ty → ty.Demands ctx (.ctor c args)
  eliminator : ∀ {e s args ty}, rules.implementation? e = none →
    Inhabits typing .empty (.elim e s args) ty →
    (∀ ty, Inhabits typing .empty s ty → ty.Demands ctx s) →
      (rules.contract? e s args).isSome = true

theorem Rules.Stuck.demanded {typing : Context} {rules : Rules} (hstuck : rules.Stuck w)
    (hrules : rules.Covers ctx typing) (hw : Inhabits typing .empty w ty) : ty.Demands ctx w := by
  induction hstuck generalizing ty with
  | var =>
    cases hw with
    | var hx => cases hx
  | @lit l =>
    cases hw
    exact ⟨l, rfl, rfl⟩
  | @lam x dom body =>
    cases hw
    exact ⟨x, dom, body, rfl⟩
  | @tuple elems =>
    cases hw with
    | tuple hlen _ => exact ⟨elems, rfl, hlen⟩
  | ctor hfree => exact hrules.constructor hfree hw
  | app _ hbeta ih =>
    cases hw with
    | app hf _ =>
      obtain ⟨x, dom, body, rfl⟩ := ih hf
      cases hbeta
  | elim hfree _ hcontract ih =>
    have hsome := hrules.eliminator hfree hw fun _ => ih
    rw [hcontract] at hsome
    cases hsome
  | proj _ hcomponent ih =>
    cases hw with
    | proj _ ht hi =>
      obtain ⟨elems, rfl, hlen⟩ := ih ht
      obtain ⟨hlt, -⟩ := List.getElem?_eq_some_iff.1 hi
      have hnone : elems.length ≤ _ := List.getElem?_eq_none_iff.1 hcomponent
      omega
  | ite _ hbranch ih =>
    cases hw with
    | prim _ hite _ _ => exact absurd rfl hite
    | ite hc _ _ =>
      obtain ⟨b, rfl⟩ := exists_bool_of_demands (ih hc)
      cases hbranch
  | prim hbranching _ hfold ih =>
    rw [← Option.not_isSome_iff_eq_none] at hfold
    refine absurd ?_ hfold
    cases hw with
    | prim heq hite hlen hargs => exact isSome_fold heq hite hlen fun a ha => ih a ha (hargs a ha)
    | eq ha hb => exact isSome_foldEq (ih _ (by simp) ha) (ih _ (by simp) hb)
    | ite _ _ _ => exact absurd ⟨rfl, _, _, _, rfl⟩ hbranching

theorem Context.WellFormed.covers_ofContext (h : ctx.WellFormed) :
    (Rules.ofContext ctx).Covers ctx ctx where
  constructor := fun {c args ty} _ hw => by
    obtain ⟨d, θ, hd, hlen, -, rfl⟩ := hw.ctor_inv
    obtain ⟨params, hshape⟩ := h.shaped.constructor hd
    rw [hshape.result, Ty.inst, Ty.bind_const]
    exact h.demands_ctor hd hlen _
  eliminator := fun {e s args ty} _ hw hs => by
    cases hw with
    | elim θ hd hscrutinee htyped _ _ =>
      obtain ⟨params, hshape⟩ := h.shaped.eliminator hd
      rw [hshape.scrutinee, Option.some.injEq] at hscrutinee
      subst hscrutinee
      -- the scrutinee is built by a constructor of the owner, and coverage has an equation for each
      -- of them
      obtain ⟨c, fields, -, rfl, hc, -⟩ := hs _ htyped
      exact Option.isSome_map.trans (h.isSome_equation? hd hc)

/-- No check made so many metavariables that their numbers, which have 32 bits, came up again:
neither the check of the term nor those that let the equations in. -/
structure Numbered (ctx : Context) (t : Term) : Prop where
  term : (Checker.infer ctx t).metavars ≤ UInt32.size
  equations : ∀ d e c, .equation d ∈ ctx.entries → ctx.eliminator d.eliminator = .ok e →
    ctx.constructor d.constructor = .ok c →
    Checker.metavarsUnder ctx (d.binders.zip (e.binderTypes c)) d.rhs e.result ≤ UInt32.size

theorem Numbered.of_usage (h : ctx.WellFormed) (ht : inferType ctx t = .ok ty)
    (hterm : t.usage ctx ≤ UInt32.size)
    (hequations : ∀ d, .equation d ∈ ctx.entries → d.rhs.usage ctx ≤ UInt32.size) :
    Numbered ctx t where
  term := (Checker.metavars_infer_le ht).trans hterm
  equations d e c hmem he hc := by
    obtain ⟨e', c', hd⟩ := h.equations d hmem
    cases hd.eliminator.symm.trans he
    cases hd.constructor.symm.trans hc
    exact (Checker.metavarsUnder_le hd.rhs).trans (hequations d hmem)

theorem Numbered.equationsTyped (hn : Numbered ctx t) (h : ctx.WellFormed) :
    ctx.EquationsTyped := by
  intro d hmem
  obtain ⟨e, c, hd⟩ := h.equations d hmem
  obtain ⟨params, he⟩ := h.shaped.eliminator hd.eliminator
  obtain ⟨params', hc⟩ := h.shaped.constructor hd.constructor
  have hassumptions : ∀ p ∈ d.binders.zip (e.binderTypes c), Checker.checkWritten ctx p.2 =
      .ok () := fun p hp =>
    Context.written_binderTypes he hc p.2 (List.of_mem_zip hp).2
  have hresult : Checker.checkWritten ctx e.result = .ok () :=
    (Checker.checkWritten_parts he.written).2
  have hsize := hn.equations d e c hmem hd.eliminator hd.constructor
  exact ⟨e, c, hd, Checker.hasType_of_checkUnder h.shaped hassumptions hresult hsize hd.rhs⟩

/-- Evaluation by equations, started on a term with a type, stops at the form that the type
demands or runs out of its budget. -/
theorem Evaluator.canonical_of_whnf {r : Evaluator} (h : ctx.Reachable)
    (hrules : r.rules = .ofContext ctx) (hn : Numbered ctx t)
    (ht : inferType ctx t = .ok ty) (hw : (r.whnf t).1 = .ok w) : ty.Demands ctx w := by
  have hwf := h.wellFormed
  have htype : HasType ctx [] t (ty.fill fun _ => .prim .int) :=
    Checker.hasType_of_inferType hwf.shaped hn.term ht fun _ => ⟨.int, rfl⟩
  obtain ⟨k, hwhnf⟩ : ∃ k, ((Rules.ofContext ctx).whnf r.remaining t).1 = some (w, k) := by
    rw [← hrules]
    unfold Evaluator.whnf Evaluator.ask at hw
    split at hw
    · rename_i a k heq
      cases hw
      exact ⟨k, heq⟩
    · cases hw
  have hinhabits : Inhabits ctx .empty w (ty.fill fun _ => .prim .int) :=
    htype.inhabits.runs hwf (hn.equationsTyped hwf) (Rules.runs_of_whnf hwhnf)
  exact ((Rules.stuck_of_whnf hwhnf).demanded hwf.covers_ofContext hinhabits).of_fill

theorem numbered_booleans :
    Numbered (Context.empty.commit Context.booleans).2 (.elim "Not" (.ctor "True" []) []) := by
  have hentries : (Context.empty.commit Context.booleans).2.entries = Context.booleans := rfl
  have ht : inferType (Context.empty.commit Context.booleans).2 (.elim "Not" (.ctor "True" []) []) =
      .ok (.const "Bool" []) := rfl
  refine Numbered.of_usage (Context.Reachable.commit .empty Context.booleans_staged).wellFormed ht
    (Nat.zero_le _) ?_
  intro d hmem
  have hcases : d = ⟨"Not", "True", [], .ctor "False" []⟩ ∨
      d = ⟨"Not", "False", [], .ctor "True" []⟩ := by
    rw [hentries] at hmem
    simpa [Context.booleans] using hmem
  rcases hcases with rfl | rfl <;> exact Nat.zero_le _

theorem Evaluator.not_true_canonical :
    ((start (Context.empty.commit Context.booleans).2 10).whnf
      (.elim "Not" (.ctor "True" []) [])).1 = .ok (.ctor "False" []) ∧
      (Ty.const "Bool" []).Demands (Context.empty.commit Context.booleans).2
        (.ctor "False" []) := by
  have hw :
      ((start (Context.empty.commit Context.booleans).2 10).whnf
        (.elim "Not" (.ctor "True" []) [])).1 =
      .ok (.ctor "False" []) := by
    rw [Context.snd_commit (show Context.empty.errors Context.booleans = [] from rfl)]
    cbv
  have ht : inferType (Context.empty.commit Context.booleans).2 (.elim "Not" (.ctor "True" []) []) =
      .ok (.const "Bool" []) := rfl
  exact ⟨hw, canonical_of_whnf (.commit .empty Context.booleans_staged) rfl numbered_booleans ht hw⟩

/-- Where the numbers come round, evaluation of an integer stops at an integer that is applied. -/
theorem Evaluator.strayCall_stuck : Context.empty.Reachable ∧
    inferType .empty (strayCall 4294967295) = .ok (.prim .int) ∧
      ∃ w, ((start .empty 3).whnf (strayCall 4294967295)).1 = .ok w ∧
        ¬(Ty.prim .int).Demands .empty w :=
  ⟨.empty, Checker.inferType_strayCall rfl, _,
    fst_ask_eq_ok_iff.2 ⟨0, Rules.whnf_strayCall⟩, nofun⟩

end ClosedTypes
