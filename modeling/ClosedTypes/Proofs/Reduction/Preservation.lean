import ClosedTypes.Proofs.Context.WellFormed
import ClosedTypes.Proofs.Reduction.Fold
import ClosedTypes.Proofs.Reduction.Normalization
import ClosedTypes.Proofs.Typing.Erased
/-!
Evaluation by equations keeps types, if the equations themselves have theirs at every instance of
their signatures.
-/

namespace ClosedTypes

variable {D : Discipline} {ctx : Context} {env env' : TypeEnv} {t u a b : Term} {ty : Ty}
  {args us : List Term} {types : List Ty}
  {x : Name}

theorem Discipline.Types.subst {m : Index Name Term} (h : D.Types ctx env t ty)
    (hm : Replaces D ctx m t env env') :
    D.Types ctx env' (t.subst m) ty := by
  rw [Term.subst_eq_replaced]
  exact h.replaced hm fun _ _ hx _ hy => Term.mem_values_free hx hy

theorem Discipline.Types.instantiate {d : Ty} (h : D.Types ctx (env.push x d) t ty)
    (ha : D.Types ctx env a d) :
    D.Types ctx env (t.instantiate x a) ty := by
  refine h.subst fun y _ u hy => ?_
  rw [Term.find?_ofList_singleton]
  by_cases hxy : x = y
  · subst hxy
    rw [TypeEnv.push_self] at hy
    cases hy
    exact .inl ⟨a, if_pos rfl, ha⟩
  · rw [TypeEnv.push_of_ne _ _ hxy] at hy
    exact .inr ⟨if_neg hxy, hy⟩

theorem exists_of_type?_zip {xs : List Name} (hus : xs.length = us.length)
    (htypes : xs.length = types.length) (h : Locals.type? (xs.zip types).reverse x = some ty) :
    ∃ u, (Index.ofList (xs.zip us)).find? x = some u ∧ (u, ty) ∈ us.zip types := by
  have find (xs : List Name) (us : List Term) (types : List Ty) (hus : xs.length = us.length)
      (h : ((xs.zip types).find? (·.1 = x)).map Prod.snd = some ty) :
      ∃ u, Index.look x (xs.zip us) = some u ∧ (u, ty) ∈ us.zip types := by
    induction xs generalizing us types with
    | nil => cases h
    | cons y xs ih =>
      obtain ⟨u, us, rfl⟩ := List.exists_cons_of_length_eq_add_one hus.symm
      cases types with
      | nil => cases h
      | cons d types =>
        by_cases hy : y = x
        · have hty : d = ty := by simpa [hy] using h
          exact ⟨u, by simp [Index.look, hy], hty ▸ List.mem_cons_self⟩
        · obtain ⟨v, hv, hmem⟩ := ih us types (Nat.succ.inj hus) (by simpa [hy] using h)
          exact ⟨v, by simpa [Index.look, hy] using hv, List.mem_cons_of_mem _ hmem⟩
  have reverse {α β : Type} {l : List α} {l' : List β} (hlen : l.length = l'.length) :
      (l.zip l').reverse = l.reverse.zip l'.reverse :=
    List.reverse_zipWith hlen
  unfold Locals.type? at h
  rw [reverse htypes] at h
  obtain ⟨u, hu, hmem⟩ := find _ us.reverse _ (by simpa using hus) h
  rw [← reverse hus] at hu
  rw [← reverse (hus.symm.trans htypes), List.mem_reverse] at hmem
  exact ⟨u, (Index.find?_ofList _ _).trans hu, hmem⟩

theorem Discipline.Types.subst_zip (view : Ty → Ty) {xs : List Name}
    (h : D.Types ctx (fun x => (Locals.type? (xs.zip types).reverse x).map view) t ty)
    (hxs : xs.length = types.length)
    (hus : us.length = types.length) (htypes : ∀ p ∈ us.zip types, D.Types ctx env p.1 (view p.2)) :
    D.Types ctx env (t.subst (.ofList (xs.zip us))) ty := by
  refine h.subst fun x _ ty hx => ?_
  obtain ⟨type, htype, rfl⟩ := Option.map_eq_some_iff.1 hx
  obtain ⟨u, hu, hmem⟩ := exists_of_type?_zip (hxs.trans hus.symm) hxs htype
  exact .inl ⟨u, hu, htypes _ hmem⟩

structure Equation.Typed (ctx : Context) (d : Equation) (e : Eliminator) (c : Constructor) :
    Prop extends d.Checked ctx e c where
  type : HasType ctx (d.binders.zip (e.binderTypes c)).reverse d.rhs e.result

theorem forall_zip_of_map_eq {α β γ : Type} {f : α → γ} {g : β → γ} {l : List α} {l' : List β}
    (h : l.map f = l'.map g) :
    ∀ p ∈ l.zip l', f p.1 = g p.2 := by
  induction l generalizing l' with
  | nil => nofun
  | cons a l ih =>
    cases l' with
    | nil => nofun
    | cons b l' =>
      rw [List.map_cons, List.map_cons, List.cons.injEq] at h
      exact List.forall_mem_cons.2 ⟨h.1, ih h.2⟩

theorem exists_find?_params {params params' : List Name} {y : Name}
    (hlen : params'.length = params.length) (hy : y ∈ params') :
    ∃ z, (y, z) ∈ params'.zip params ∧ (Index.ofList (params'.zip (params.map Ty.var))).find? y =
      some (.var z) := by
  have hkey : y ∈ (params'.zip (params.map Ty.var)).map Prod.fst := by
    rwa [List.map_fst_zip (by rw [List.length_map]; exact Nat.le_of_eq hlen)]
  cases hfind : (Index.ofList (params'.zip (params.map Ty.var))).find? y with
  | none => exact absurd hkey (Index.find?_ofList_eq_none_iff.1 hfind)
  | some u =>
    have hmem := Index.mem_of_find?_ofList hfind
    rw [List.zip_map_right, List.mem_map] at hmem
    obtain ⟨⟨y', z⟩, hyz, heq⟩ := hmem
    cases heq
    exact ⟨z, hyz, rfl⟩

theorem inst_subst_params {params params' : List Name} {θ φ : Name → Ty} {field : Ty}
    (hparams : params'.map φ = params.map θ)
    (hvars : ∀ y ∈ field.vars, y ∈ params') (hmeta : ∀ i, field.mentionsMetavar i = false) :
    (field.subst (.ofList (params'.zip (params.map .var)))).inst θ = field.inst φ := by
  rw [Ty.subst_eq_bind, Ty.inst, Ty.bind_bind]
  refine Ty.bind_congr (fun y hy => ?_) fun i hi => absurd hi (by rw [hmeta i]; decide)
  have hlen : params'.length = params.length := by simpa using congrArg List.length hparams
  obtain ⟨z, hyz, hfind⟩ := exists_find?_params hlen (hvars y (Ty.mem_vars.2 hy))
  rw [hfind]
  exact (forall_zip_of_map_eq hparams _ hyz).symm

theorem Eliminator.Shaped.binderTypes_eq {e : Eliminator} {c : Constructor}
    {params params' : List Name} (he : e.Shaped ctx params) (hc : c.Shaped ctx params') :
    e.binderTypes c = c.fields.map (·.subst (.ofList (params'.zip (params.map .var)))) ++
      e.rest := by
  have hown : c.params = params' := by
    unfold Constructor.params
    rw [hc.result]
    simp
  unfold Eliminator.binderTypes
  rw [he.scrutinee, hown]

theorem Equation.Checked.types_binders {d : Equation} {e : Eliminator} {c : Constructor}
    {scrutinee : Ty} {fields : List Term}
    {θ φ : Name → Ty} (h : ctx.Shaped) (hd : d.Checked ctx e c)
    (hscrutinee : e.scrutinee? = some scrutinee)
    (hresult : c.signature.result.inst φ = scrutinee.inst θ)
    (hlen : fields.length = c.fields.length)
    (hfields : ∀ p ∈ fields.zip c.fields, D.Types ctx env p.1 (p.2.inst φ))
    (hargs : ∀ p ∈ args.zip e.rest, D.Types ctx env p.1 (p.2.inst θ)) :
    ∀ p ∈ (fields ++ args).zip (e.binderTypes c), D.Types ctx env p.1 (p.2.inst θ) := by
  obtain ⟨params, he⟩ := h.eliminator hd.eliminator
  obtain ⟨params', hc⟩ := h.constructor hd.constructor
  have hparams : params'.map φ = params.map θ := by
    obtain rfl : Ty.const e.owner (params.map .var) = scrutinee :=
      Option.some.inj (he.scrutinee.symm.trans hscrutinee)
    rw [hc.result, Ty.inst, Ty.inst, Ty.bind_const, Ty.bind_const, List.map_map, List.map_map,
      Ty.const.injEq] at hresult
    exact hresult.2
  rw [he.binderTypes_eq hc, List.zip_append (by rw [List.length_map]; exact hlen),
    List.forall_mem_append]
  refine ⟨(forall_zip_map (p := fun (a : Term) (t : Ty) => D.Types ctx env a (t.inst θ))).2
    fun p hp => ?_, hargs⟩
  have hfield : p.2 ∈ c.fields := (List.of_mem_zip hp).2
  have hwritten := (Checker.checkWritten_parts hc.written).1 p.2 hfield
  rw [inst_subst_params hparams (hc.fields p.2 hfield)
    (Checker.checkWritten_eq_ok_iff.1 hwritten).2]
  exact hfields p hp

theorem forall_zip_of_zip {α : Type} {p : Term → α → Prop} {as bs : List Term} {ds : List α}
    (hlen : as.length = bs.length)
    (has : ∀ q ∈ as.zip ds, p q.1 q.2) (hab : ∀ q ∈ as.zip bs, ∀ d, p q.1 d → p q.2 d) :
    ∀ q ∈ bs.zip ds, p q.1 q.2 := by
  induction as generalizing bs ds with
  | nil =>
    cases List.length_eq_zero_iff.1 hlen.symm
    nofun
  | cons a as ih =>
    obtain ⟨b, bs, rfl⟩ := List.exists_cons_of_length_eq_add_one hlen.symm
    cases ds with
    | nil => nofun
    | cons d ds =>
      obtain ⟨ha, has⟩ := List.forall_mem_cons.1 has
      obtain ⟨hb, hbs⟩ := List.forall_mem_cons.1 hab
      exact List.forall_mem_cons.2 ⟨hb d ha, ih (Nat.succ.inj hlen) has hbs⟩

/-- An equation whose right-hand side has its type under a discipline, at every instance of the
signatures. -/
structure Equation.Obeys (D : Discipline) (ctx : Context) (d : Equation) (e : Eliminator)
    (c : Constructor) : Prop
    extends d.Checked ctx e c where
  type : ∀ θ, D.Types ctx (TypeEnv.inst θ (Locals.type? (d.binders.zip (e.binderTypes c)).reverse))
    d.rhs (e.result.inst θ)

theorem Equation.Typed.obeys_lax {d : Equation} {e : Eliminator} {c : Constructor}
    (h : d.Typed ctx e c) : d.Obeys .lax ctx e c :=
  { h with type := fun θ => h.type.inhabits.inst θ fun _ _ _ _ _ _ => trivial }

theorem Equation.Obeys.typed {d : Equation} {e : Eliminator} {c : Constructor} {θ : Name → Ty}
    (hd : d.Obeys D ctx e c)
    (hlen : us.length = (e.binderTypes c).length)
    (hus : ∀ p ∈ us.zip (e.binderTypes c), D.Types ctx env p.1 (p.2.inst θ)) :
    D.Types ctx env (d.rhs.subst (.ofList (d.binders.zip us))) (e.result.inst θ) :=
  (hd.type θ).subst_zip _ (by rw [hd.length, Context.length_binderTypes]) hlen hus

namespace Discipline.Types

theorem int (n : Int64) : D.Types ctx env (.int n) (.prim .int) := .lit

theorem bool (b : Bool) : D.Types ctx env (.bool b) (.prim .bool) := .lit

theorem binary {op : Operator} (hop : op.arity = 2) (heq : op ≠ .eq) (hite : op ≠ .ite)
    (ha : D.Types ctx env a (.prim (Checker.operandType op)))
    (hb : D.Types ctx env b (.prim (Checker.operandType op))) :
    D.Types ctx env (.prim op [a, b]) (.prim (Checker.resultType op)) :=
  .prim heq hite hop.symm (by simp [ha, hb])

theorem ctor_inv (h : D.Types ctx env (.ctor x args) ty) :
    ∃ d θ, ctx.constructor x = .ok d ∧ args.length = d.fields.length ∧
      (∀ p ∈ args.zip d.fields, D.Types ctx env p.1 (p.2.inst θ)) ∧
      ty = d.signature.result.inst θ := by
  cases h with
  | ctor θ hd hlen hargs => exact ⟨_, θ, hd, hlen, hargs, rfl⟩

theorem operands {op : Operator} {ts us : List Term} (h : D.Types ctx env (.prim op ts) ty)
    (hlen : ts.length = us.length)
    (htu : ∀ p ∈ ts.zip us, ∀ ty, D.Types ctx env p.1 ty → D.Types ctx env p.2 ty) :
    D.Types ctx env (.prim op us) ty := by
  cases h with
  | prim heq hite hargs htypes =>
    refine .prim heq hite (hlen.symm.trans hargs) ?_
    rw [← List.map_snd_zip (Nat.le_of_eq hlen.symm), List.forall_mem_map]
    exact fun p hp => htu p hp _ (htypes p.1 (List.of_mem_zip hp).1)
  | @eq _ a b _ ha hb =>
    obtain ⟨a', b', rfl⟩ := List.length_eq_two.1 hlen.symm
    exact .eq (htu (a, a') (by simp) _ ha) (htu (b, b') (by simp) _ hb)
  | @ite _ c t e _ hc ht he =>
    obtain ⟨c', t', e', rfl⟩ := List.length_eq_three.1 hlen.symm
    exact .ite (htu (c, c') (by simp) _ hc) (htu (t, t') (by simp) _ ht)
      (htu (e, e') (by simp) _ he)

theorem operand {op : Operator} {before after : List Term}
    (h : D.Types ctx env (.prim op (before ++ t :: after)) ty)
    (htu : ∀ ty, D.Types ctx env t ty → D.Types ctx env u ty) :
    D.Types ctx env (.prim op (before ++ u :: after)) ty := by
  refine h.operands (by simp) fun p hp => ?_
  rw [List.zip_append rfl, List.zip_cons_cons, List.mem_append, List.mem_cons] at hp
  have same {ts : List Term} (h : p ∈ ts.zip ts) : p.1 = p.2 := by
    rw [← List.map_id ts, List.zip_map'] at h
    obtain ⟨t, -, rfl⟩ := List.mem_map.1 h
    rfl
  rcases hp with hp | rfl | hp
  · exact fun _ h => same hp ▸ h
  · exact htu
  · exact fun _ h => same hp ▸ h

theorem add_inv (h : D.Types ctx env (.prim .add [a, b]) ty) :
    ty = .prim .int ∧ D.Types ctx env a (.prim .int) ∧ D.Types ctx env b (.prim .int) := by
  cases h with
  | prim _ _ _ hargs => exact ⟨rfl, hargs a (by simp), hargs b (by simp)⟩

theorem foldAdd (ha : D.Types ctx env a (.prim .int)) (hb : D.Types ctx env b (.prim .int))
    (h : foldAdd a b = some u) :
    D.Types ctx env u (.prim .int) := by
  unfold ClosedTypes.foldAdd at h
  split at h
  · cases h
    exact .int _
  · cases h
    exact .binary rfl nofun nofun hb ha
  · split at h
    · cases h
      exact ha
    · obtain ⟨⟨t, k⟩, ht, rfl⟩ := Option.map_eq_some_iff.1 h
      rw [eq_add_of_addend? ht] at ha
      exact .binary rfl nofun nofun ha.add_inv.2.1 (.int _)
  · cases h

theorem foldSub (ha : D.Types ctx env a (.prim .int)) (h : foldSub a b = some u) :
    D.Types ctx env u (.prim .int) := by
  unfold ClosedTypes.foldSub at h
  split at h
  · cases h
    exact .int _
  · cases h
    exact .binary rfl nofun nofun ha (.int _)
  · split at h
    · cases h
      exact .int _
    · cases h

theorem foldEq {p : Prim} (ha : D.Types ctx env a (.prim p)) (hb : D.Types ctx env b (.prim p))
    (h : foldEq a b = some u) :
    D.Types ctx env u (.prim .bool) := by
  unfold ClosedTypes.foldEq at h
  split at h
  · cases h
    exact .bool _
  · split at h
    · cases h
      exact .bool _
    · split at h
      · cases h
        exact .eq hb ha
      · split at h
        · rename_i hadd hint
          cases h
          rw [eq_add_of_addend? hadd] at ha
          exact .eq ha.add_inv.2.1 (.int _)
        · cases h

theorem foldAnd (ha : D.Types ctx env a (.prim .bool)) (hb : D.Types ctx env b (.prim .bool))
    (h : foldAnd a b = some u) :
    D.Types ctx env u (.prim .bool) := by
  unfold ClosedTypes.foldAnd at h
  split at h <;> cases h
  · exact .bool _
  · exact .bool _
  · exact hb
  · exact ha

theorem foldOr (ha : D.Types ctx env a (.prim .bool)) (hb : D.Types ctx env b (.prim .bool))
    (h : foldOr a b = some u) :
    D.Types ctx env u (.prim .bool) := by
  unfold ClosedTypes.foldOr at h
  split at h <;> cases h
  · exact .bool _
  · exact .bool _
  · exact hb
  · exact ha

theorem fold {op : Operator} (h : D.Types ctx env (.prim op args) ty) (hu : fold op args = some u) :
    D.Types ctx env u ty := by
  cases h with
  | eq ha hb => exact foldEq ha hb hu
  | ite _ _ _ => cases hu
  | prim heq hite hlen hargs =>
    unfold ClosedTypes.fold at hu
    split at hu
    · exact foldAdd (hargs _ (by simp)) (hargs _ (by simp)) hu
    · exact foldSub (hargs _ (by simp)) hu
    · simp only [Option.bind_eq_bind, Option.bind_eq_some_iff, Option.pure_def, Option.some.injEq]
        at hu
      obtain ⟨x, -, y, -, rfl⟩ := hu
      exact .int _
    · simp only [Option.bind_eq_bind, Option.bind_eq_some_iff, Option.pure_def, Option.some.injEq]
        at hu
      obtain ⟨x, -, y, -, rfl⟩ := hu
      exact .bool _
    · exact absurd rfl heq
    · exact foldAnd (hargs _ (by simp)) (hargs _ (by simp)) hu
    · exact foldOr (hargs _ (by simp)) (hargs _ (by simp)) hu
    · simp only [Option.bind_eq_bind, Option.bind_eq_some_iff, Option.pure_def, Option.some.injEq]
        at hu
      obtain ⟨x, -, rfl⟩ := hu
      exact .bool _
    · cases hu

end Discipline.Types

/-- Where an operation goes by a rule, what it comes to has its type. -/
structure Rules.Keeps (D : Discipline) (ctx : Context) (rules : Rules) : Prop where
  equation : ∀ {env ty e c fields args d}, rules.context.equation? e c = some d →
    D.Types ctx env (.elim e (.ctor c fields) args) ty →
    D.Types ctx env (d.rhs.subst (.ofList (d.binders.zip (fields ++ args)))) ty
  constructor : ∀ {env ty c args body}, rules.implementation? c = some body →
    D.Types ctx env (.ctor c args) ty →
    D.Types ctx env (body.applyAll args) ty
  eliminator : ∀ {env ty e s args body}, rules.implementation? e = some body →
    D.Types ctx env (.elim e s args) ty →
    D.Types ctx env (body.applyAll (s :: args)) ty

namespace Discipline.Types

variable {rules : Rules} (hrules : rules.Keeps D ctx)

include hrules

theorem contracts (ht : D.Types ctx env t ty) (hstep : rules.Contracts t u) :
    D.Types ctx env u ty := by
  cases hstep with
  | beta =>
    cases ht with
    | app hf ha =>
      cases hf with
      | lam _ hb => exact hb.instantiate ha
  | erasure =>
    cases ht with
    | ann ht => exact ht
  | projection hi =>
    cases ht with
    | proj _ ht htype =>
      cases ht with
      | tuple _ hts =>
        exact hts (_, _) (List.mem_of_getElem? (List.getElem?_zip_eq_some.2 ⟨hi, htype⟩))
  | @branch c t e =>
    cases ht with
    | prim _ hite _ _ => exact absurd rfl hite
    | ite _ ht he => cases c <;> assumption
  | equation hd => exact hrules.equation hd ht
  | fold hfold => exact ht.fold hfold
  | constructor hbody => exact hrules.constructor hbody ht
  | eliminator hbody => exact hrules.eliminator hbody ht

theorem advances (ht : D.Types ctx env t ty) (hstep : rules.Advances t u) :
    D.Types ctx env u ty := by
  induction hstep generalizing ty with
  | contract hstep => exact ht.contracts hrules hstep
  | fn _ ih =>
    cases ht with
    | app hf ha => exact .app (ih hf) ha
  | scrutinee _ ih =>
    cases ht with
    | elim θ hd hscrutinee hs hlen hargs => exact .elim θ hd hscrutinee (ih hs) hlen hargs
  | proj _ ih =>
    cases ht with
    | proj hD ht hi => exact .proj hD (ih ht) hi
  | operand _ ih => exact ht.operand fun _ => ih

theorem runs (ht : D.Types ctx env t ty) (hrun : rules.Runs t u) : D.Types ctx env u ty := by
  induction hrun with
  | refl => exact ht
  | tail _ hstep ih => exact ih.advances hrules hstep

theorem normalizes (ht : D.Types ctx env t ty) (hu : rules.Normalizes t u) :
    D.Types ctx env u ty := by
  induction hu generalizing env ty with
  | step hstep _ ih => exact ih (ht.advances hrules hstep)
  | var => exact ht
  | lit => exact ht
  | lam _ ih =>
    cases ht with
    | lam hdom hb => exact .lam hdom (ih hb)
  | app _ _ ihf iha =>
    cases ht with
    | app hf ha => exact .app (ihf hf) (iha ha)
  | ctor _ hlen _ ih =>
    cases ht with
    | ctor θ hd hargs htypes =>
      refine .ctor θ hd (hlen.symm.trans hargs) ?_
      exact forall_zip_of_zip (p := fun (a : Term) (d : Ty) => D.Types ctx env a (d.inst θ))
        hlen htypes fun p hp _ => ih p hp
  | elim _ _ hlen _ ihs ih =>
    cases ht with
    | elim θ hd hscrutinee hs hargs htypes =>
      refine .elim θ hd hscrutinee (ihs hs) (hlen.symm.trans hargs) ?_
      exact forall_zip_of_zip (p := fun (a : Term) (d : Ty) => D.Types ctx env a (d.inst θ))
        hlen htypes fun p hp _ => ih p hp
  | tuple hlen _ ih =>
    cases ht with
    | tuple hargs htypes =>
      exact .tuple (hlen.symm.trans hargs) (forall_zip_of_zip hlen htypes fun p hp _ => ih p hp)
  | proj _ ih =>
    cases ht with
    | proj hD ht hi => exact .proj hD (ih ht) hi
  | prim hlen _ _ ih => exact ht.operands hlen fun p hp _ => ih p hp
  | fold hlen _ hfold _ ih ihu => exact ihu ((ht.operands hlen fun p hp _ => ih p hp).fold hfold)

end Discipline.Types

def Context.EquationsObey (D : Discipline) (ctx : Context) : Prop :=
  ∀ d, .equation d ∈ ctx.entries → ∃ e c, d.Obeys D ctx e c

def Context.EquationsTyped (ctx : Context) : Prop :=
  ∀ d, .equation d ∈ ctx.entries → ∃ e c, d.Typed ctx e c

theorem Context.EquationsTyped.obey_lax (h : ctx.EquationsTyped) : ctx.EquationsObey .lax :=
  fun d hmem => by
  obtain ⟨e, c, hd⟩ := h d hmem
  exact ⟨e, c, hd.obeys_lax⟩

theorem Context.WellFormed.keeps_ofContext (h : ctx.WellFormed) (heq : ctx.EquationsObey D) :
    (Rules.ofContext ctx).Keeps D ctx where
  equation := fun {env ty e c fields args d} hd ht => by
    obtain ⟨hmem, rfl, rfl⟩ := h.filed.equation?_eq_some_iff.1 hd
    obtain ⟨e, c, hobeys⟩ := heq d hmem
    cases ht with
    | elim θ hd hscrutinee hs hlen hargs =>
      cases hobeys.eliminator.symm.trans hd
      -- the constructor is used at an instance of its own parameters, which the scrutinee's type
      -- equates with the eliminator's
      obtain ⟨c, φ, hc, hfields, hbinders, hresult⟩ := hs.ctor_inv
      cases hobeys.constructor.symm.trans hc
      have hus :=
        hobeys.toChecked.types_binders h.shaped hscrutinee hresult.symm hfields hbinders hargs
      refine hobeys.typed ?_ hus
      rw [List.length_append, Context.length_binderTypes, hfields, hlen]
  constructor hbody := by cases hbody
  eliminator hbody := by cases hbody

theorem Inhabits.runs (h : ctx.WellFormed) (heq : ctx.EquationsTyped)
    (ht : Inhabits ctx .empty t ty)
    (hrun : (Rules.ofContext ctx).Runs t u) : Inhabits ctx .empty u ty :=
  Discipline.Types.runs (h.keeps_ofContext heq.obey_lax) ht hrun

end ClosedTypes
