import ClosedTypes.Typing.Checker
/-!
Which types a term has, said by rules and without a checker's metavariables. Each use of a
constructor or an eliminator takes its signature at some instance of the signature's type variables.
-/

namespace ClosedTypes

abbrev Locals := List (Name × Ty)

def Locals.type? (locals : Locals) (x : Name) : Option Ty := (locals.find? (·.1 = x)).map Prod.snd

def Ty.Written (ctx : Context) (t : Ty) : Prop := Checker.checkWritten ctx t = .ok ()

mutual

inductive HasType (ctx : Context) : Locals → Term → Ty → Prop where
  | var {locals x t} : locals.type? x = some t → HasType ctx locals (.var x) t
  | lit {locals l} : HasType ctx locals (.lit l) (.prim l.prim)
  | lam {locals x d b c} : HasType ctx ((x, d) :: locals) b c →
    HasType ctx locals (.lam x none b) (.arrow d c)
  | annotatedLam {locals x d b c} :
    d.Written ctx → HasType ctx ((x, d) :: locals) b c →
      HasType ctx locals (.lam x (some d) b) (.arrow d c)
  | app {locals f a d c} : HasType ctx locals f (.arrow d c) → HasType ctx locals a d →
    HasType ctx locals (.app f a) c
  | ann {locals t ty} : ty.Written ctx → HasType ctx locals t ty → HasType ctx locals (.ann t ty) ty
  | ctor {locals c args d} (m : Index Name Ty) :
    ctx.constructor c = .ok d → HasTypes ctx locals args (d.fields.map (·.subst m)) →
    HasType ctx locals (.ctor c args) (d.signature.result.subst m)
  | elim {locals e s args d scrutinee} (m : Index Name Ty) :
    ctx.eliminator e = .ok d → d.scrutinee? = some scrutinee →
      HasType ctx locals s (scrutinee.subst m) →
    HasTypes ctx locals args (d.rest.map (·.subst m)) →
      HasType ctx locals (.elim e s args) (d.result.subst m)
  | prim {locals op args} :
    op ≠ .eq → op ≠ .ite → HasTypes ctx locals args
      (.replicate op.arity (.prim (Checker.operandType op))) →
    HasType ctx locals (.prim op args) (.prim (Checker.resultType op))
  | eq {locals a b p} :
    HasType ctx locals a (.prim p) → HasType ctx locals b (.prim p) →
      HasType ctx locals (.prim .eq [a, b]) (.prim .bool)
  | ite {locals c t e ty} :
    HasType ctx locals c (.prim .bool) → HasType ctx locals t ty → HasType ctx locals e ty →
    HasType ctx locals (.prim .ite [c, t, e]) ty
  | tuple {locals elems types} : HasTypes ctx locals elems types →
    HasType ctx locals (.tuple elems) (.tuple types)
  | proj {locals t i types ty} :
    HasType ctx locals t (.tuple types) → types[i.toNat]? = some ty →
      HasType ctx locals (.proj t i) ty

inductive HasTypes (ctx : Context) : Locals → List Term → List Ty → Prop where
  | nil {locals} : HasTypes ctx locals [] []
  | cons {locals t ts ty types} :
    HasType ctx locals t ty → HasTypes ctx locals ts types →
      HasTypes ctx locals (t :: ts) (ty :: types)

end

theorem HasTypes.length_eq {ctx : Context} {locals : Locals} {ts : List Term} {types : List Ty}
    (h : HasTypes ctx locals ts types) : ts.length = types.length := by
  induction ts generalizing types with
  | nil => cases h; rfl
  | cons t ts ih =>
    cases h with
    | cons _ h => rw [List.length_cons, List.length_cons, ih h]

theorem HasTypes.forall_zip {ctx : Context} {locals : Locals} {ts : List Term} {types : List Ty}
    (h : HasTypes ctx locals ts types) :
    ∀ p ∈ ts.zip types, HasType ctx locals p.1 p.2 := by
  induction ts generalizing types with
  | nil => nofun
  | cons t ts ih =>
    cases h with
    | cons ht hts => exact List.forall_mem_cons.2 ⟨ht, ih hts⟩

theorem HasTypes.of_forall_zip {ctx : Context} {locals : Locals} {ts : List Term} {types : List Ty}
    (hlen : ts.length = types.length) (h : ∀ p ∈ ts.zip types, HasType ctx locals p.1 p.2) :
    HasTypes ctx locals ts types := by
  induction ts generalizing types with
  | nil =>
    cases List.length_eq_zero_iff.1 hlen.symm
    exact .nil
  | cons t ts ih =>
    obtain ⟨ty, types, rfl⟩ := List.exists_cons_of_length_eq_add_one hlen.symm
    obtain ⟨ht, hts⟩ := List.forall_mem_cons.1 h
    exact .cons ht (ih (Nat.succ.inj hlen) hts)

theorem HasTypes.forall_replicate {ctx : Context} {locals : Locals} {ts : List Term}
    {ty : Ty} {n : Nat}
    (h : HasTypes ctx locals ts (.replicate n ty)) : ∀ t ∈ ts, HasType ctx locals t ty := by
  induction ts generalizing n with
  | nil => nofun
  | cons t ts ih =>
    cases n with
    | zero => cases h
    | succ n =>
      cases h with
      | cons ht hts => exact List.forall_mem_cons.2 ⟨ht, ih hts⟩

end ClosedTypes
