import ClosedTypes.Proofs.Typing.Erased
import ClosedTypes.Proofs.Typing.Formed
/-!
Types as evaluation sees them once representations are loaded: in place of a represented type,
whatever its arguments, stands what is behind it. A term that has a type in a context has the backed
type where the signatures of the context are backed alike.
-/

namespace ClosedTypes

variable {β : Name → Option Backing} {θ : Name → Ty} {σ : UInt32 → Ty} {x c : Name} {b : Backing}

namespace Backing

@[elab_as_elim]
theorem toTy_induct {P : Ty → Prop} (prim : ∀ p, P (.prim p))
    (tuple : ∀ elems, (∀ t ∈ elems, P t) → P (.tuple elems)) (b : Backing) : P b.toTy :=
  Backing.rec (motive_1 := fun b => P b.toTy) (motive_2 := fun bs => ∀ t ∈ toTys bs, P t)
    (prim .int) (prim .bool)
    (fun bs => tuple (toTys bs)) nofun (fun _ _ h hs => List.forall_mem_cons.2 ⟨h, hs⟩) b

theorem telescope_toTy (b : Backing) : b.toTy.telescope = ([], b.toTy) := by
  cases b <;> rfl

theorem varOccurrences_toTy (b : Backing) : b.toTy.varOccurrences = [] :=
  b.toTy_induct (fun _ => rfl) fun elems ih => by
    rw [Ty.varOccurrences, Ty.varOccurrencesAll_eq]
    exact List.flatMap_eq_nil_iff.2 ih

theorem mentionsMetavar_toTy (b : Backing) (i : UInt32) : b.toTy.mentionsMetavar i = false :=
  b.toTy_induct (fun _ => rfl) fun elems ih => by
    rw [Ty.mentionsMetavar_tuple]
    exact List.any_eq_false.2 fun t ht => Bool.eq_false_iff.1 (ih t ht)

theorem bind_toTy (b : Backing) : b.toTy.bind θ σ = b.toTy := by
  refine Ty.bind_eq_self (fun x hx => ?_) fun i hi => ?_
  · rw [varOccurrences_toTy] at hx
    cases hx
  · rw [mentionsMetavar_toTy] at hi
    cases hi

end Backing

namespace Ty

def backed (β : Name → Option Backing) (t : Ty) : Ty :=
  t.replace fun | const c _ => (β c).map Backing.toTy | _ => none

@[simp] theorem backed_var (x : Name) : (var x).backed β = var x := rfl

@[simp] theorem backed_metavar (i : UInt32) : (metavar i).backed β = metavar i := rfl

@[simp] theorem backed_prim (p : Prim) : (prim p).backed β = prim p := rfl

@[simp] theorem backed_arrow (d c : Ty) : (arrow d c).backed β = arrow (d.backed β) (c.backed β) :=
  rfl

@[simp] theorem backed_const (c : Name) (args : List Ty) :
    (const c args).backed β = ((β c).map Backing.toTy).getD (const c (args.map (backed β))) := by
  rw [backed, replace, replaceAll_eq_map]
  rfl

@[simp] theorem backed_tuple (elems : List Ty) :
    (tuple elems).backed β = tuple (elems.map (backed β)) := by
  rw [backed, replace, replaceAll_eq_map]
  rfl

theorem backed_const_of_none (h : β c = none) (args : List Ty) :
    (const c args).backed β = const c (args.map (backed β)) := by
  rw [backed_const, h]
  rfl

theorem backed_const_of_some (h : β c = some b) (args : List Ty) :
    (const c args).backed β = b.toTy := by
  rw [backed_const, h]
  rfl

theorem backed_toTy (b : Backing) : b.toTy.backed β = b.toTy :=
  b.toTy_induct (fun _ => rfl) fun elems ih => by
    rw [backed_tuple, (List.map_congr_left ih).trans (List.map_id' elems)]

theorem backed_bind (t : Ty) : (t.bind θ σ).backed β =
    (t.backed β).bind (fun x => (θ x).backed β) fun i => (σ i).backed β := by
  induction t with
  | const c args ih =>
    rw [bind_const]
    cases h : β c with
    | none => simpa [backed_const_of_none h] using ih
    | some b => rw [backed_const_of_some h, backed_const_of_some h, Backing.bind_toTy]
  | arrow d c ihd ihc => rw [bind_arrow, backed_arrow, ihd, ihc, backed_arrow, bind_arrow]
  | tuple elems ih => simpa using ih
  | _ => rfl

theorem backed_const_vars {c : Name} (h : β c = none) (params : List Name) :
    (const c (params.map .var)).backed β = .const c (params.map .var) := by
  rw [backed_const_of_none h, List.map_map]
  rfl

theorem backed_subst_params {params params' : List Name} (t : Ty) :
    (t.subst (.ofList (params'.zip (params.map .var)))).backed β =
      (t.backed β).subst (.ofList (params'.zip (params.map .var))) := by
  rw [subst_eq_bind, backed_bind, subst_eq_bind]
  congr
  funext x
  cases h : (Index.ofList (params'.zip (params.map Ty.var))).find? x with
  | none => rfl
  | some u =>
    obtain ⟨y, -, rfl⟩ := List.mem_map.1 (List.of_mem_zip (Index.mem_of_find?_ofList h)).2
    rfl

theorem backed_substConst (h : β c = some b) (t : Ty) :
    (t.substConst c b.toTy).backed β = t.backed β := by
  have all {elems : List Ty} (ih : ∀ t ∈ elems, (t.substConst c b.toTy).backed β = t.backed β) :
      (elems.map (·.substConst c b.toTy)).map (backed β) = elems.map (backed β) := by
    rw [List.map_map]
    exact List.map_congr_left ih
  induction t with
  | const d args ih =>
    by_cases hd : d = c
    · subst hd
      have hsubst : (const d args).substConst d b.toTy = b.toTy := by simp [substConst, replace]
      rw [hsubst, backed_toTy, backed_const_of_some h]
    · have hsubst : (const d args).substConst c b.toTy =
          const d (args.map (·.substConst c b.toTy)) := by
        simp [substConst, replace, hd, replaceAll_eq_map]
      rw [hsubst, backed_const, backed_const, all ih]
  | arrow d c' ihd ihc => exact congrArg₂ arrow ihd ihc
  | tuple elems ih =>
    have hsubst : (tuple elems).substConst c b.toTy =
        tuple (elems.map (·.substConst c b.toTy)) := by
      simp [substConst, replace, replaceAll_eq_map]
    rw [hsubst, backed_tuple, backed_tuple, all ih]
  | _ => rfl

theorem telescope_backed (t : Ty) :
    (t.backed β).telescope = (t.doms.map (backed β), t.result.backed β) := by
  induction t with
  | const c args _ =>
    have hresult : (const c args).result = const c args := rfl
    rw [hresult]
    cases h : β c with
    | none =>
      rw [backed_const_of_none h]
      rfl
    | some b =>
      rw [backed_const_of_some h]
      exact b.telescope_toTy
  | arrow d c _ ihc =>
    change (d.backed β :: (c.backed β).telescope.1, (c.backed β).telescope.2) = _
    rw [ihc]
    rfl
  | tuple elems _ =>
    have hresult : (tuple elems).result = tuple elems := rfl
    rw [hresult, backed_tuple]
    rfl
  | _ => rfl

theorem doms_backed (t : Ty) : (t.backed β).doms = t.doms.map (backed β) :=
  congrArg Prod.fst t.telescope_backed

theorem result_backed (t : Ty) : (t.backed β).result = t.result.backed β :=
  congrArg Prod.snd t.telescope_backed

theorem mem_varOccurrences_of_backed {t : Ty} (h : x ∈ (t.backed β).varOccurrences) :
    x ∈ t.varOccurrences := by
  have all {elems : List Ty} (ih : ∀ t ∈ elems, x ∈ (t.backed β).varOccurrences →
        x ∈ t.varOccurrences)
      (h : x ∈ (elems.map (backed β)).flatMap varOccurrences) :
          x ∈ elems.flatMap varOccurrences := by
    obtain ⟨t, ht, hx⟩ := List.mem_flatMap.1 h
    obtain ⟨u, hu, rfl⟩ := List.mem_map.1 ht
    exact List.mem_flatMap.2 ⟨u, hu, ih u hu hx⟩
  induction t with
  | const c args ih =>
    cases hc : β c with
    | none =>
      rw [backed_const_of_none hc, varOccurrences, varOccurrencesAll_eq] at h
      rw [varOccurrences, varOccurrencesAll_eq]
      exact all ih h
    | some b =>
      rw [backed_const_of_some hc, b.varOccurrences_toTy] at h
      cases h
  | arrow d c ihd ihc => exact List.mem_append.2 ((List.mem_append.1 h).imp ihd ihc)
  | tuple elems ih =>
    rw [backed_tuple, varOccurrences, varOccurrencesAll_eq] at h
    rw [varOccurrences, varOccurrencesAll_eq]
    exact all ih h
  | _ => exact h

theorem mentionsMetavar_of_backed {t : Ty} {i : UInt32}
    (h : (t.backed β).mentionsMetavar i = true) : t.mentionsMetavar i = true := by
  have all {elems : List Ty} (ih : ∀ t ∈ elems, (t.backed β).mentionsMetavar i = true →
        t.mentionsMetavar i = true)
      (h : (elems.map (backed β)).any (·.mentionsMetavar i) = true) :
          elems.any (·.mentionsMetavar i) = true := by
    obtain ⟨t, ht, hi⟩ := List.any_eq_true.1 h
    obtain ⟨u, hu, rfl⟩ := List.mem_map.1 ht
    exact List.any_eq_true.2 ⟨u, hu, ih u hu hi⟩
  induction t with
  | const c args ih =>
    rw [mentionsMetavar_const]
    cases hc : β c with
    | none =>
      rw [backed_const_of_none hc, mentionsMetavar_const] at h
      exact all ih h
    | some b =>
      rw [backed_const_of_some hc, b.mentionsMetavar_toTy] at h
      cases h
  | arrow d c ihd ihc =>
    rw [mentionsMetavar_arrow, Bool.or_eq_true]
    rw [backed_arrow, mentionsMetavar_arrow, Bool.or_eq_true] at h
    exact h.imp ihd ihc
  | tuple elems ih =>
    rw [mentionsMetavar_tuple]
    rw [backed_tuple, mentionsMetavar_tuple] at h
    exact all ih h
  | _ => exact h

end Ty

namespace Constructor

def backed (β : Name → Option Backing) (d : Constructor) : Constructor :=
  { d with signature := d.signature.backed β }

theorem fields_backed (d : Constructor) : (d.backed β).fields = d.fields.map (Ty.backed β) :=
  d.signature.doms_backed

theorem result_backed (d : Constructor) :
    (d.backed β).signature.result = d.signature.result.backed β := d.signature.result_backed

end Constructor

namespace Eliminator

def backed (β : Name → Option Backing) (d : Eliminator) : Eliminator :=
  { d with signature := d.signature.backed β }

theorem scrutinee?_backed (d : Eliminator) :
    (d.backed β).scrutinee? = d.scrutinee?.map (Ty.backed β) := by
  rw [scrutinee?, backed, Ty.doms_backed, List.head?_map, scrutinee?]

theorem rest_backed (d : Eliminator) : (d.backed β).rest = d.rest.map (Ty.backed β) := by
  rw [rest, backed, Ty.doms_backed, ← List.map_tail, rest]

theorem result_backed (d : Eliminator) : (d.backed β).result = d.result.backed β :=
  d.signature.result_backed

end Eliminator

def Entry.backed (β : Name → Option Backing) : Entry → Entry
  | constructor d => .constructor (d.backed β)
  | eliminator d => .eliminator (d.backed β)
  | e => e

namespace Context

def backed (β : Name → Option Backing) (ctx : Context) : Context :=
  { ctx with entries := ctx.entries.map (Entry.backed β) }

variable {ctx : Context}

theorem find?_backed : (ctx.backed β).find? x = (ctx.find? x).map (Entry.backed β) := by
  unfold find?
  have hnames : (ctx.backed β).names = ctx.names := rfl
  rw [hnames]
  cases ctx.names.find? x with
  | none => rfl
  | some i => exact List.getElem?_map

theorem constructor_backed {d : Constructor} (h : ctx.constructor x = .ok d) :
    (ctx.backed β).constructor x = .ok (d.backed β) := by
  rw [constructor_eq_ok_iff] at h ⊢
  rw [find?_backed, h]
  rfl

theorem eliminator_backed {d : Eliminator} (h : ctx.eliminator x = .ok d) :
    (ctx.backed β).eliminator x = .ok (d.backed β) := by
  rw [eliminator_eq_ok_iff] at h ⊢
  rw [find?_backed, h]
  rfl

theorem exists_of_constructor_backed {d : Constructor} (h : (ctx.backed β).constructor x = .ok d) :
    ∃ d', ctx.constructor x = .ok d' ∧ d'.backed β = d := by
  rw [constructor_eq_ok_iff, find?_backed, Option.map_eq_some_iff] at h
  obtain ⟨e, he, hd⟩ := h
  cases e with
  | constructor d' => exact ⟨d', constructor_eq_ok_iff.2 he, Entry.constructor.inj hd⟩
  | _ => cases hd

theorem exists_of_eliminator_backed {d : Eliminator} (h : (ctx.backed β).eliminator x = .ok d) :
    ∃ d', ctx.eliminator x = .ok d' ∧ d'.backed β = d := by
  rw [eliminator_eq_ok_iff, find?_backed, Option.map_eq_some_iff] at h
  obtain ⟨e, he, hd⟩ := h
  cases e with
  | eliminator d' => exact ⟨d', eliminator_eq_ok_iff.2 he, Entry.eliminator.inj hd⟩
  | _ => cases hd

end Context

namespace TypeEnv

def backed (β : Name → Option Backing) (env : TypeEnv) : TypeEnv :=
  fun x => (env x).map (Ty.backed β)

theorem backed_push (env : TypeEnv) (x : Name) (d : Ty) :
    (env.push x d).backed β = (env.backed β).push x (d.backed β) := by
  funext y
  unfold backed push
  split <;> rfl

end TypeEnv

theorem Ty.backed_inst (θ : Name → Ty) (t : Ty) :
    (t.inst θ).backed β = (t.backed β).inst fun x => (θ x).backed β := t.backed_bind

variable {ctx : Context} {env : TypeEnv} {t : Term} {ty : Ty}

/-- A term keeps its type when representations are loaded, but for what stands for the
represented types. -/
theorem Inhabits.backed (β : Name → Option Backing) (h : Inhabits ctx env t ty) :
    Inhabits (ctx.backed β) (env.backed β) t (ty.backed β) := by
  induction h with
  | var hx => exact .var (Option.map_eq_some_iff.2 ⟨_, hx, rfl⟩)
  | lit => exact .lit
  | lam _ _ ih => exact .lam (fun _ _ => trivial) (TypeEnv.backed_push .. ▸ ih)
  | app _ _ ihf iha => exact .app ihf iha
  | ann _ ih => exact .ann ih
  | @ctor env x args d θ hd hlen _ ih =>
    rw [Ty.backed_inst, ← d.result_backed]
    refine .ctor _ (Context.constructor_backed hd)
      (by rw [d.fields_backed, List.length_map, hlen]) ?_
    rw [d.fields_backed]
    refine (forall_zip_map (p := fun (a : Term) (t : Ty) =>
      Inhabits (ctx.backed β) (env.backed β) a (t.inst _))).2 fun p hp => ?_
    exact Ty.backed_inst θ p.2 ▸ ih p hp
  | @elim env x s args d scrutinee θ hd hscrutinee _ hlen _ ihs ih =>
    rw [Ty.backed_inst, ← d.result_backed]
    rw [Ty.backed_inst] at ihs
    refine .elim _ (Context.eliminator_backed hd) (by rw [d.scrutinee?_backed, hscrutinee]; rfl) ihs
      (by rw [d.rest_backed, List.length_map, hlen]) ?_
    rw [d.rest_backed]
    refine (forall_zip_map (p := fun (a : Term) (t : Ty) =>
      Inhabits (ctx.backed β) (env.backed β) a (t.inst _))).2 fun p hp => ?_
    exact Ty.backed_inst θ p.2 ▸ ih p hp
  | prim heq hite hlen _ ih => exact .prim heq hite hlen ih
  | eq _ _ iha ihb => exact .eq iha ihb
  | ite _ _ _ ihc iht ihe => exact .ite ihc iht ihe
  | tuple hlen _ ih =>
    rw [Ty.backed_tuple]
    exact .tuple (by rw [List.length_map, hlen]) (forall_zip_map.2 ih)
  | proj _ _ hi ih =>
    rw [Ty.backed_tuple] at ih
    exact .proj trivial ih (by rw [List.getElem?_map, hi]; rfl)

namespace Discipline.Types

variable {D : Discipline}

theorem ctor_backed_inv {args : List Term} (h : D.Types (ctx.backed β) env (.ctor x args) ty) :
    ∃ d θ, ctx.constructor x = .ok d ∧ args.length = d.fields.length ∧
      (∀ p ∈ args.zip d.fields, D.Types (ctx.backed β) env p.1 ((p.2.backed β).inst θ)) ∧
      ty = (d.signature.result.backed β).inst θ := by
  cases h with
  | ctor θ hbacked hlen hargs =>
    obtain ⟨d, hd, rfl⟩ := Context.exists_of_constructor_backed hbacked
    rw [d.fields_backed] at hlen hargs
    rw [List.length_map] at hlen
    rw [d.result_backed]
    have hargs :=
      (forall_zip_map (p := fun (a : Term) (t : Ty) => D.Types (ctx.backed β) env a (t.inst θ))).1
        hargs
    exact ⟨d, θ, hd, hlen, hargs, rfl⟩

theorem elim_backed_inv {s : Term} {args : List Term}
    (h : D.Types (ctx.backed β) env (.elim x s args) ty) :
    ∃ d scrutinee θ, ctx.eliminator x = .ok d ∧ d.scrutinee? = some scrutinee ∧
      D.Types (ctx.backed β) env s ((scrutinee.backed β).inst θ) ∧ args.length = d.rest.length ∧
      (∀ p ∈ args.zip d.rest, D.Types (ctx.backed β) env p.1 ((p.2.backed β).inst θ)) ∧
      ty = (d.result.backed β).inst θ := by
  cases h with
  | elim θ hbacked hscrutinee hs hlen hargs =>
    obtain ⟨d, hd, rfl⟩ := Context.exists_of_eliminator_backed hbacked
    rw [d.scrutinee?_backed, Option.map_eq_some_iff] at hscrutinee
    obtain ⟨scrutinee, hscrutinee, rfl⟩ := hscrutinee
    rw [d.rest_backed] at hlen hargs
    rw [List.length_map] at hlen
    rw [d.result_backed]
    have hargs :=
      (forall_zip_map (p := fun (a : Term) (t : Ty) => D.Types (ctx.backed β) env a (t.inst θ))).1
        hargs
    exact ⟨d, scrutinee, θ, hd, hscrutinee, hs, hlen, hargs, rfl⟩

end Discipline.Types

end ClosedTypes
