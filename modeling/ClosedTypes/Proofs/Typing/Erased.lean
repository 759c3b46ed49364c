import ClosedTypes.Proofs.Term.Capture
import ClosedTypes.Proofs.Term.Subterms
import ClosedTypes.Proofs.Ty.Bind
import ClosedTypes.Typing.Declarative
/-!
Typing that looks past ascriptions. Equations are checked once, at the type variables of their
signatures, and used at any instance of them, while what is annotated in them stays as it is; so
this, and not the typing of programs, is what evaluation preserves. How much the annotations of
binders count is left to a discipline.
-/

namespace ClosedTypes

abbrev Ty.inst (θ : Name → Ty) (t : Ty) : Ty := t.bind θ .metavar

theorem Ty.inst_inst (θ φ : Name → Ty) (t : Ty) :
    (t.inst θ).inst φ = t.inst fun x => (θ x).inst φ := t.bind_bind

abbrev TypeEnv := Name → Option Ty

namespace TypeEnv

def empty : TypeEnv := fun _ => none

def push (env : TypeEnv) (x : Name) (d : Ty) : TypeEnv := fun y => if x = y then some d else env y

@[simp] theorem push_self (env : TypeEnv) (x : Name) (d : Ty) : env.push x d x = some d :=
  if_pos rfl

theorem push_of_ne (env : TypeEnv) {x y : Name} (d : Ty) (h : x ≠ y) : env.push x d y = env y :=
  if_neg h

def inst (θ : Name → Ty) (env : TypeEnv) : TypeEnv := fun x => (env x).map (Ty.inst θ)

theorem inst_push (θ : Name → Ty) (env : TypeEnv) (x : Name) (d : Ty) :
    (env.push x d).inst θ = (env.inst θ).push x (d.inst θ) := by
  funext y
  unfold inst push
  split <;> rfl

end TypeEnv

/-- What typing lets through: the annotations that a binder of some type may have, and
projections. -/
structure Discipline where
  annotates : Ty → Ty → Prop
  projects : Prop

namespace Discipline

def lax : Discipline := ⟨fun _ _ => True, True⟩

/-- Binders have the types that are written there. What a tuple is taken apart for is not said by
the tuple alone, and excluded. -/
def strict (ctx : Context) :
    Discipline := ⟨fun written d => written = d ∧ written.Written ctx, False⟩

inductive Types (D : Discipline) (ctx : Context) : TypeEnv → Term → Ty → Prop where
  | var {env x t} : env x = some t → Types D ctx env (.var x) t
  | lit {env l} : Types D ctx env (.lit l) (.prim l.prim)
  | lam {env x dom b d c} :
    (∀ written, dom = some written → D.annotates written d) → Types D ctx (env.push x d) b c →
    Types D ctx env (.lam x dom b) (.arrow d c)
  | app {env f a d c} : Types D ctx env f (.arrow d c) → Types D ctx env a d →
    Types D ctx env (.app f a) c
  | ann {env t written ty} : Types D ctx env t ty → Types D ctx env (.ann t written) ty
  | ctor {env x args d} (θ : Name → Ty) :
    ctx.constructor x = .ok d → args.length = d.fields.length →
      (∀ p ∈ args.zip d.fields, Types D ctx env p.1 (p.2.inst θ)) →
    Types D ctx env (.ctor x args) (d.signature.result.inst θ)
  | elim {env x s args d scrutinee} (θ : Name → Ty) :
    ctx.eliminator x = .ok d → d.scrutinee? = some scrutinee →
      Types D ctx env s (scrutinee.inst θ) →
    args.length = d.rest.length → (∀ p ∈ args.zip d.rest, Types D ctx env p.1 (p.2.inst θ)) →
    Types D ctx env (.elim x s args) (d.result.inst θ)
  | prim {env op args} :
    op ≠ .eq → op ≠ .ite → args.length = op.arity →
      (∀ a ∈ args, Types D ctx env a (.prim (Checker.operandType op))) →
    Types D ctx env (.prim op args) (.prim (Checker.resultType op))
  | eq {env a b p} :
    Types D ctx env a (.prim p) → Types D ctx env b (.prim p) →
      Types D ctx env (.prim .eq [a, b]) (.prim .bool)
  | ite {env c t e ty} :
    Types D ctx env c (.prim .bool) → Types D ctx env t ty → Types D ctx env e ty →
    Types D ctx env (.prim .ite [c, t, e]) ty
  | tuple {env elems types} :
    elems.length = types.length → (∀ p ∈ elems.zip types, Types D ctx env p.1 p.2) →
    Types D ctx env (.tuple elems) (.tuple types)
  | proj {env t i types ty} :
    D.projects → Types D ctx env t (.tuple types) → types[i.toNat]? = some ty →
      Types D ctx env (.proj t i) ty

end Discipline

open Discipline (Types)

abbrev Inhabits : Context → TypeEnv → Term → Ty → Prop := Discipline.lax.Types

variable {D : Discipline} {ctx : Context} {env env' : TypeEnv} {locals : Locals}
variable {t : Term} {ty : Ty} {ts : List Term} {types : List Ty}

theorem Locals.type?_cons (x : Name) (d : Ty) (locals : Locals) :
    Locals.type? ((x, d) :: locals) = TypeEnv.push locals.type? x d := by
  funext y
  unfold type? TypeEnv.push
  by_cases h : x = y <;> simp [h]

theorem forall_zip_map {α β γ : Type} {l : List α} {l' : List β} {f : β → γ} {p : α → γ → Prop} :
    (∀ q ∈ l.zip (l'.map f), p q.1 q.2) ↔ ∀ q ∈ l.zip l', p q.1 (f q.2) := by
  rw [List.zip_map_right, List.forall_mem_map]
  rfl

theorem forall_map_zip {α β γ : Type} {l : List α} {l' : List γ} {f : α → β} {p : β → γ → Prop} :
    (∀ q ∈ (l.map f).zip l', p q.1 q.2) ↔ ∀ q ∈ l.zip l', p (f q.1) q.2 := by
  rw [List.zip_map_left, List.forall_mem_map]
  rfl

theorem exists_mem_zip {α β : Type} {l : List α} {l' : List β} {a : α} (hlen : l.length = l'.length)
    (ha : a ∈ l) :
    ∃ b, (a, b) ∈ l.zip l' := by
  rw [← List.map_fst_zip (Nat.le_of_eq hlen)] at ha
  obtain ⟨p, hp, rfl⟩ := List.mem_map.1 ha
  exact ⟨p.2, hp⟩

theorem HasType.under (h : HasType ctx locals t ty)
    (hD : ∀ written, written.Written ctx → D.annotates written written)
    (hproj : ∀ s ∈ t.subterms, s.isProj = true → D.projects) : D.Types ctx locals.type? t ty := by
  induction t generalizing locals ty with
  | var x =>
    cases h with
    | var hx => exact .var hx
  | lit l =>
    cases h
    exact .lit
  | app f a ihf iha =>
    obtain ⟨hf, ha⟩ := List.forall_mem_append.1 (List.forall_mem_cons.1 hproj).2
    cases h with
    | app htf hta => exact .app (ihf htf hf) (iha hta ha)
  | lam x dom b ih =>
    obtain ⟨-, hb⟩ := List.forall_mem_cons.1 hproj
    cases h with
    | lam htb => exact .lam nofun (Locals.type?_cons .. ▸ ih htb hb)
    | annotatedLam hw htb =>
      refine .lam (fun written e => ?_) (Locals.type?_cons .. ▸ ih htb hb)
      cases e
      exact hD _ hw
  | ann t written ih =>
    obtain ⟨-, ht⟩ := List.forall_mem_cons.1 hproj
    cases h with
    | ann _ htt => exact .ann (ih htt ht)
  | ctor x args ih =>
    have hargs := Term.forall_mem_subtermsAll.1 (List.forall_mem_cons.1 hproj).2
    cases h with
    | ctor m hd htargs =>
      have hlen := htargs.length_eq
      rw [List.length_map] at hlen
      rw [Ty.subst_eq_bind]
      refine .ctor _ hd hlen fun p hp => ?_
      rw [Ty.inst, ← Ty.subst_eq_bind]
      have hmem := (List.of_mem_zip hp).1
      exact ih p.1 hmem (forall_zip_map.1 htargs.forall_zip p hp) (hargs p.1 hmem)
  | elim x s args ihs ih =>
    obtain ⟨hs, hargs⟩ := List.forall_mem_append.1 (List.forall_mem_cons.1 hproj).2
    have hargs := Term.forall_mem_subtermsAll.1 hargs
    cases h with
    | elim m hd hscrutinee hts htargs =>
      have hlen := htargs.length_eq
      rw [List.length_map] at hlen
      have hs := ihs hts hs
      rw [Ty.subst_eq_bind] at hs ⊢
      refine .elim _ hd hscrutinee hs hlen fun p hp => ?_
      rw [Ty.inst, ← Ty.subst_eq_bind]
      have hmem := (List.of_mem_zip hp).1
      exact ih p.1 hmem (forall_zip_map.1 htargs.forall_zip p hp) (hargs p.1 hmem)
  | prim op args ih =>
    have hargs := Term.forall_mem_subtermsAll.1 (List.forall_mem_cons.1 hproj).2
    cases h with
    | prim heq hite htargs =>
      have hlen := htargs.length_eq
      rw [List.length_replicate] at hlen
      exact .prim heq hite hlen fun a ha => ih a ha (htargs.forall_replicate a ha) (hargs a ha)
    | eq hta htb =>
      exact .eq (ih _ (by simp) hta (hargs _ (by simp))) (ih _ (by simp) htb (hargs _ (by simp)))
    | ite htc htt hte =>
      exact .ite (ih _ (by simp) htc (hargs _ (by simp))) (ih _ (by simp) htt (hargs _ (by simp)))
        (ih _ (by simp) hte (hargs _ (by simp)))
  | tuple elems ih =>
    have helems := Term.forall_mem_subtermsAll.1 (List.forall_mem_cons.1 hproj).2
    cases h with
    | tuple hts =>
      refine .tuple hts.length_eq fun p hp => ?_
      have hmem := (List.of_mem_zip hp).1
      exact ih p.1 hmem (hts.forall_zip p hp) (helems p.1 hmem)
  | proj t i ih =>
    obtain ⟨hhere, ht⟩ := List.forall_mem_cons.1 hproj
    cases h with
    | proj htt hi => exact .proj (hhere rfl) (ih htt ht) hi

theorem HasType.inhabits (h : HasType ctx locals t ty) : Inhabits ctx locals.type? t ty :=
  h.under (fun _ _ => trivial) fun _ _ _ => trivial

namespace Discipline.Types

theorem congr (h : D.Types ctx env t ty) (henv : ∀ x ∈ t.free, env x = env' x) :
    D.Types ctx env' t ty := by
  induction h generalizing env' with
  | var hx => exact .var ((henv _ List.mem_cons_self).symm.trans hx)
  | lit => exact .lit
  | @lam env x dom b d c hdom _ ih =>
    refine .lam hdom (ih fun y hy => ?_)
    unfold TypeEnv.push
    split
    · rfl
    · rename_i hne
      exact henv y (List.mem_filter.2 ⟨hy, by simpa using Ne.symm hne⟩)
  | app _ _ ihf iha =>
    simp only [Term.free, List.mem_append] at henv
    exact .app (ihf fun x hx => henv x (.inl hx)) (iha fun x hx => henv x (.inr hx))
  | ann _ ih => exact .ann (ih henv)
  | ctor θ hd hlen _ ih =>
    refine .ctor θ hd hlen fun p hp => ih p hp fun x hx => henv x ?_
    exact Term.mem_freeAll.2 ⟨p.1, (List.of_mem_zip hp).1, hx⟩
  | elim θ hd hscrutinee _ hlen _ ihs ih =>
    simp only [Term.free, List.mem_append] at henv
    refine .elim θ hd hscrutinee (ihs fun x hx => henv x (.inl hx)) hlen fun p hp =>
      ih p hp fun x hx => henv x (.inr ?_)
    exact Term.mem_freeAll.2 ⟨p.1, (List.of_mem_zip hp).1, hx⟩
  | prim heq hite hlen _ ih =>
    exact .prim heq hite hlen fun a ha => ih a ha fun x hx =>
      henv x (Term.mem_freeAll.2 ⟨a, ha, hx⟩)
  | eq _ _ iha ihb =>
    simp only [Term.free, Term.freeAll, List.append_nil, List.mem_append] at henv
    exact .eq (iha fun x hx => henv x (.inl hx)) (ihb fun x hx => henv x (.inr hx))
  | ite _ _ _ ihc iht ihe =>
    simp only [Term.free, Term.freeAll, List.append_nil, List.mem_append] at henv
    exact .ite (ihc fun x hx => henv x (.inl hx)) (iht fun x hx => henv x (.inr (.inl hx)))
      (ihe fun x hx => henv x (.inr (.inr hx)))
  | tuple hlen _ ih =>
    refine .tuple hlen fun p hp => ih p hp fun x hx => henv x ?_
    exact Term.mem_freeAll.2 ⟨p.1, (List.of_mem_zip hp).1, hx⟩
  | proj hD _ hi ih => exact .proj hD (ih henv) hi

theorem exists_of_mem_free {x : Name} (h : D.Types ctx env t ty) (hx : x ∈ t.free) :
    ∃ u, env x = some u := by
  induction h with
  | @var env y t hy =>
    cases List.mem_singleton.1 hx
    exact ⟨t, hy⟩
  | lit => cases hx
  | @lam env y dom b d c _ _ ih =>
    obtain ⟨hxb, hne⟩ := List.mem_filter.1 hx
    obtain ⟨u, hu⟩ := ih hxb
    rw [TypeEnv.push_of_ne _ _ (by simpa using Ne.symm (of_decide_eq_true hne))] at hu
    exact ⟨u, hu⟩
  | app _ _ ihf iha => exact (List.mem_append.1 hx).elim ihf iha
  | ann _ ih => exact ih hx
  | ctor θ hd hlen _ ih =>
    obtain ⟨a, ha, hx⟩ := Term.mem_freeAll.1 hx
    obtain ⟨field, hp⟩ := exists_mem_zip hlen ha
    exact ih _ hp hx
  | elim θ hd hscrutinee _ hlen _ ihs ih =>
    rcases List.mem_append.1 hx with hx | hx
    · exact ihs hx
    · obtain ⟨a, ha, hx⟩ := Term.mem_freeAll.1 hx
      obtain ⟨dom, hp⟩ := exists_mem_zip hlen ha
      exact ih _ hp hx
  | prim heq hite hlen _ ih =>
    obtain ⟨a, ha, hx⟩ := Term.mem_freeAll.1 hx
    exact ih a ha hx
  | eq _ _ iha ihb =>
    simp only [Term.free, Term.freeAll, List.append_nil, List.mem_append] at hx
    exact hx.elim iha ihb
  | ite _ _ _ ihc iht ihe =>
    simp only [Term.free, Term.freeAll, List.append_nil, List.mem_append] at hx
    exact hx.elim ihc fun hx => hx.elim iht ihe
  | tuple hlen _ ih =>
    obtain ⟨a, ha, hx⟩ := Term.mem_freeAll.1 hx
    obtain ⟨type, hp⟩ := exists_mem_zip hlen ha
    exact ih _ hp hx
  | proj _ _ _ ih => exact ih hx

theorem inst (h : D.Types ctx env t ty) (θ : Name → Ty)
    (hθ : ∀ s ∈ t.subterms, ∀ w, s.domain? = some w → ∀ d, D.annotates w d →
      D.annotates w (d.inst θ)) :
    D.Types ctx (env.inst θ) t (ty.inst θ) := by
  induction h with
  | var hx => exact .var (Option.map_eq_some_iff.2 ⟨_, hx, rfl⟩)
  | lit => exact .lit
  | lam hdom _ ih =>
    obtain ⟨hhere, hb⟩ := List.forall_mem_cons.1 hθ
    exact .lam (fun w hw => hhere w hw _ (hdom w hw)) (TypeEnv.inst_push .. ▸ ih hb)
  | app _ _ ihf iha =>
    obtain ⟨hf, ha⟩ := List.forall_mem_append.1 (List.forall_mem_cons.1 hθ).2
    exact .app (ihf hf) (iha ha)
  | ann _ ih => exact .ann (ih (List.forall_mem_cons.1 hθ).2)
  | ctor φ hd hlen _ ih =>
    have hargs := Term.forall_mem_subtermsAll.1 (List.forall_mem_cons.1 hθ).2
    rw [Ty.inst_inst]
    exact .ctor _ hd hlen fun p hp => Ty.inst_inst φ θ p.2 ▸ ih p hp
      (hargs _ (List.of_mem_zip hp).1)
  | elim φ hd hscrutinee _ hlen _ ihs ih =>
    obtain ⟨hs, hargs⟩ := List.forall_mem_append.1 (List.forall_mem_cons.1 hθ).2
    have hargs := Term.forall_mem_subtermsAll.1 hargs
    have ihs := ihs hs
    rw [Ty.inst_inst] at ihs ⊢
    exact .elim _ hd hscrutinee ihs hlen fun p hp =>
      Ty.inst_inst φ θ p.2 ▸ ih p hp (hargs _ (List.of_mem_zip hp).1)
  | prim heq hite hlen _ ih =>
    have hargs := Term.forall_mem_subtermsAll.1 (List.forall_mem_cons.1 hθ).2
    exact .prim heq hite hlen fun a ha => ih a ha (hargs a ha)
  | eq _ _ iha ihb =>
    have hargs := Term.forall_mem_subtermsAll.1 (List.forall_mem_cons.1 hθ).2
    exact .eq (iha (hargs _ (by simp))) (ihb (hargs _ (by simp)))
  | ite _ _ _ ihc iht ihe =>
    have hargs := Term.forall_mem_subtermsAll.1 (List.forall_mem_cons.1 hθ).2
    exact .ite (ihc (hargs _ (by simp))) (iht (hargs _ (by simp))) (ihe (hargs _ (by simp)))
  | tuple hlen _ ih =>
    have helems := Term.forall_mem_subtermsAll.1 (List.forall_mem_cons.1 hθ).2
    rw [Ty.inst, Ty.bind_tuple]
    refine .tuple (by rw [List.length_map]; exact hlen) ?_
    exact forall_zip_map.2 fun p hp => ih p hp (helems _ (List.of_mem_zip hp).1)
  | @proj env t i types ty hD _ hi ih =>
    have ih := ih (List.forall_mem_cons.1 hθ).2
    rw [Ty.inst, Ty.bind_tuple] at ih
    exact .proj hD ih (by rw [List.getElem?_map, hi]; rfl)

/-- Each free variable of `t` is one that `m` replaces by a term of its type, or one that it
leaves alone. -/
def Replaces (D : Discipline) (ctx : Context) (m : Index Name Term) (t : Term)
    (env env' : TypeEnv) : Prop :=
  ∀ x ∈ t.free, ∀ ty, env x = some ty → (∃ u, m.find? x = some u ∧ D.Types ctx env' u ty) ∨
    m.find? x = none ∧ env' x = some ty

theorem Replaces.mono {m : Index Name Term} {s : Term} (h : Replaces D ctx m t env env')
    (hs : ∀ x ∈ s.free, x ∈ t.free) :
    Replaces D ctx m s env env' :=
  fun x hx => h x (hs x hx)

theorem Replaces.push {m : Index Name Term} {x z : Name} {dom : Option Ty} {b c : Term} {d : Ty}
    (h : Replaces D ctx m (.lam x dom b) env env') (hz : ∀ y r, m.find? y = some r → z ∉ r.free)
    (hm : (m.erase x).find? z = none) (hc : ∀ y ∈ c.free, y = z ∨ y ∈ b.free ∧ y ≠ x) :
    Replaces D ctx (m.erase x) c (env.push z d) (env'.push z d) := by
  intro y hy ty hty
  by_cases hyz : z = y
  · subst hyz
    rw [TypeEnv.push_self] at hty ⊢
    exact .inr ⟨hm, hty⟩
  · rcases hc y hy with rfl | ⟨hyb, hyx⟩
    · exact absurd rfl hyz
    · rw [TypeEnv.push_of_ne _ _ hyz] at hty ⊢
      rw [Index.find?_erase, if_neg hyx]
      refine (h y (List.mem_filter.2 ⟨hyb, by simpa using hyx⟩) ty hty).imp_left
          fun ⟨r, hr, hrty⟩ =>
        ⟨r, hr, hrty.congr fun v hv => ?_⟩
      have hne : z ≠ v := fun e => hz y r hr (e ▸ hv)
      rw [TypeEnv.push_of_ne _ _ hne]

theorem replaces_var {x y : Name} {d : Ty} (hy : y ∉ t.free) :
    Replaces D ctx (.ofList [(x, .var y)]) t (env.push x d) (env.push y d) := by
  intro v hv ty hty
  rw [Term.find?_ofList_singleton]
  by_cases hvx : x = v
  · subst hvx
    rw [TypeEnv.push_self] at hty
    cases hty
    exact .inl ⟨_, if_pos rfl, .var (TypeEnv.push_self ..)⟩
  · have hvy : y ≠ v := fun e => hy (e ▸ hv)
    rw [TypeEnv.push_of_ne _ _ hvx] at hty
    exact .inr ⟨if_neg hvx, by rw [TypeEnv.push_of_ne _ _ hvy, hty]⟩

/-- A substitution that puts terms of the right types, and avoids what is free in them, keeps the
types of `t`. -/
def Replaceable (D : Discipline) (ctx : Context) (t : Term) : Prop :=
  ∀ ⦃ty : Ty⦄ ⦃env env' : TypeEnv⦄ ⦃m : Index Name Term⦄ ⦃avoid : List Name⦄, D.Types ctx env t ty →
    Replaces D ctx m t env env' → (∀ x r, m.find? x = some r → ∀ y ∈ r.free, y ∈ avoid) →
    D.Types ctx env' (t.replaced avoid m) ty

section

variable {m : Index Name Term} {avoid : List Name} {x y : Name} {dom : Option Ty} {b f a s : Term}
  {args : List Term} {c d : Ty}

theorem replaceable_var : Replaceable D ctx (.var x) := by
  intro ty env env' m avoid h hm havoid
  cases h with
  | var hx =>
    rw [Term.replaced_var]
    rcases hm x List.mem_cons_self ty hx with ⟨u, hu, hty⟩ | ⟨hnone, hx'⟩
    · rw [hu]
      exact hty
    · rw [hnone]
      exact .var hx'

theorem replaceable_app (hf : Replaceable D ctx f) (ha : Replaceable D ctx a) :
    Replaceable D ctx (.app f a) := by
  intro ty env env' m avoid h hm havoid
  cases h with
  | app hfty haty =>
    rw [Term.replaced_app]
    exact .app (hf hfty (hm.mono fun x hx => List.mem_append_left _ hx) havoid)
      (ha haty (hm.mono fun x hx => List.mem_append_right _ hx) havoid)

theorem Replaces.types_of_idle (hm : Replaces D ctx m (.lam x dom b) env env')
    (hidle : (m.erase x).keys.any (· ∈ b.free) = false) (hb : D.Types ctx (env.push x d) b c) :
    D.Types ctx (env'.push x d) b c := by
  refine hb.congr fun y hy => ?_
  by_cases hyx : x = y
  · rw [hyx, TypeEnv.push_self, TypeEnv.push_self]
  · obtain ⟨u, hu⟩ := hb.exists_of_mem_free hy
    have hnone := Term.any_keys_eq_false_iff.1 hidle y hy
    rw [Index.find?_erase, if_neg (Ne.symm hyx)] at hnone
    rw [TypeEnv.push_of_ne _ _ hyx] at hu ⊢
    rw [TypeEnv.push_of_ne _ _ hyx, hu]
    rcases hm y (List.mem_filter.2 ⟨hy, by simpa using Ne.symm hyx⟩) u hu with ⟨v, hv, -⟩ | ⟨-, hu'⟩
    · rw [hnone] at hv
      cases hv
    · exact hu'.symm

theorem types_replaced_var (hb : Replaceable D ctx b) (h : D.Types ctx (env.push x d) b c)
    (hy : y ∉ b.free) :
    D.Types ctx (env.push y d) (b.replaced [y] (.ofList [(x, .var y)])) c := by
  refine hb h (replaces_var hy) fun z r hz v hv => ?_
  rw [Term.find?_ofList_singleton] at hz
  split at hz <;> cases hz
  exact hv

/-- A binder is renamed before the substitution goes on below it, so that this is about all
bodies of one size. -/
theorem replaceable_lam (ih : ∀ s : Term, s.size = b.size → Replaceable D ctx s) :
    Replaceable D ctx (.lam x dom b) := by
  intro ty env env' m avoid h hm havoid
  cases h with
  | @lam _ _ _ _ d c hdom hb =>
    have hinner : ∀ y r, (m.erase x).find? y = some r → ∀ z ∈ r.free, z ∈ avoid :=
      fun y r hy => havoid y r (Index.find?_of_find?_erase hy)
    cases hidle : (m.erase x).keys.any (· ∈ b.free) with
    | false =>
      rw [Term.replaced_lam_of_idle hidle]
      exact .lam hdom (hm.types_of_idle hidle hb)
    | true =>
      by_cases hx : x ∈ avoid
      · obtain ⟨y, hy⟩ : ∃ y, y = x.freshVariant (avoid ++ b.free ++ (m.erase x).keys) := ⟨_, rfl⟩
        obtain ⟨hya, hyb, hnone⟩ := Term.freshVariant_apart hy
        have hpush :=
          hm.push (d := d) (fun z r hz hfree => hya (havoid z r hz y hfree)) hnone fun z =>
            Term.free_replaced_var
        rw [Term.replaced_lam_of_captures hidle hx hy]
        exact .lam hdom
          (ih _ (Term.size_replaced_var b [y] x y) (types_replaced_var (ih b rfl) hb hyb)
            hpush hinner)
      · have hnone : (m.erase x).find? x = none := by rw [Index.find?_erase, if_pos rfl]
        have hpush :=
          hm.push (c := b) (d := d) (fun z r hz hfree => hx (havoid z r hz x hfree)) hnone
            fun z hz => ?_
        · rw [Term.replaced_lam_of_mem_free hidle hx]
          exact .lam hdom (ih b rfl hb hpush hinner)
        · by_cases hzx : z = x
          · exact .inl hzx
          · exact .inr ⟨hz, hzx⟩

theorem replaceable_ctor {k : Name} (hargs : ∀ a ∈ args, Replaceable D ctx a) :
    Replaceable D ctx (.ctor k args) := by
  intro ty env env' m avoid h hm havoid
  cases h with
  | ctor θ hd hlen hty =>
    rw [Term.replaced_ctor]
    refine .ctor θ hd (by rw [List.length_map]; exact hlen) ?_
    refine (forall_map_zip (p := fun (a : Term) (field : Ty) =>
      D.Types ctx env' a (field.inst θ))).2 fun p hp => ?_
    have hmem := (List.of_mem_zip hp).1
    exact hargs _ hmem (hty p hp) (hm.mono fun x hx => Term.mem_freeAll.2 ⟨_, hmem, hx⟩) havoid

theorem replaceable_elim {e : Name} (hs : Replaceable D ctx s)
    (hargs : ∀ a ∈ args, Replaceable D ctx a) :
    Replaceable D ctx (.elim e s args) := by
  intro ty env env' m avoid h hm havoid
  cases h with
  | elim θ hd hscrutinee hsty hlen hty =>
    rw [Term.replaced_elim]
    refine .elim θ hd hscrutinee (hs hsty (hm.mono fun x hx => List.mem_append_left _ hx) havoid)
      (by rw [List.length_map]; exact hlen) ?_
    refine (forall_map_zip (p := fun (a : Term) (dom : Ty) => D.Types ctx env' a (dom.inst θ))).2
      fun p hp => ?_
    have hmem := (List.of_mem_zip hp).1
    have hpart := hm.mono fun x hx => List.mem_append_right _ (Term.mem_freeAll.2 ⟨_, hmem, hx⟩)
    exact hargs _ hmem (hty p hp) hpart havoid

theorem replaceable_prim {op : Operator} (hargs : ∀ a ∈ args, Replaceable D ctx a) :
    Replaceable D ctx (.prim op args) := by
  intro ty env env' m avoid h hm havoid
  have part {a : Term} {ty : Ty} (ha : a ∈ args) (hty : D.Types ctx env a ty) :
      D.Types ctx env' (a.replaced avoid m) ty :=
    hargs a ha hty (hm.mono fun x hx => Term.mem_freeAll.2 ⟨a, ha, hx⟩) havoid
  rw [Term.replaced_prim]
  cases h with
  | prim heq hite hlen hty =>
    exact .prim heq hite (by rw [List.length_map]; exact hlen)
      (List.forall_mem_map.2 fun a ha => part ha (hty a ha))
  | eq ha hb => exact .eq (part (by simp) ha) (part (by simp) hb)
  | ite hc ht he => exact .ite (part (by simp) hc) (part (by simp) ht) (part (by simp) he)

theorem replaceable_tuple (helems : ∀ a ∈ args, Replaceable D ctx a) :
    Replaceable D ctx (.tuple args) := by
  intro ty env env' m avoid h hm havoid
  cases h with
  | tuple hlen hty =>
    rw [Term.replaced_tuple]
    refine .tuple (by rw [List.length_map]; exact hlen) (forall_map_zip.2 fun p hp => ?_)
    have hmem := (List.of_mem_zip hp).1
    exact helems _ hmem (hty p hp) (hm.mono fun x hx => Term.mem_freeAll.2 ⟨_, hmem, hx⟩) havoid

end

theorem replaceable (t : Term) : Replaceable D ctx t := by
  match t with
  | .var x => exact replaceable_var
  | .lit l =>
    intro ty env env' m avoid h hm havoid
    cases h
    rw [Term.replaced_lit]
    exact .lit
  | .app f a => exact replaceable_app (replaceable f) (replaceable a)
  | .lam x dom b => exact replaceable_lam fun s hs => replaceable s
  | .ann t ty =>
    intro _ env env' m avoid h hm havoid
    cases h with
    | ann ht =>
      rw [Term.replaced_ann]
      exact .ann (replaceable t ht hm havoid)
  | .ctor k args => exact replaceable_ctor fun a hmem => replaceable a
  | .elim e s args => exact replaceable_elim (replaceable s) fun a hmem => replaceable a
  | .prim op args => exact replaceable_prim fun a hmem => replaceable a
  | .tuple elems => exact replaceable_tuple fun a hmem => replaceable a
  | .proj t i =>
    intro ty env env' m avoid h hm havoid
    cases h with
    | proj hD ht hi =>
      rw [Term.replaced_proj]
      exact .proj hD (replaceable t ht hm havoid) hi
termination_by t.size
decreasing_by
  all_goals
    simp only [Term.size]
    try have := Term.size_lt_of_mem hmem
    omega

theorem replaced {t : Term} {ty : Ty} {env env' : TypeEnv} {m : Index Name Term} {avoid : List Name}
    (h : D.Types ctx env t ty)
    (hm : Replaces D ctx m t env env')
    (havoid : ∀ x r, m.find? x = some r → ∀ y ∈ r.free, y ∈ avoid) :
    D.Types ctx env' (t.replaced avoid m) ty :=
  replaceable t h hm havoid

end Discipline.Types

end ClosedTypes
