import ClosedTypes.Reduction.Rules
import Mathlib.Logic.Relation
/-!
Reduction as a relation. A redex contracts by one of the rules, and a term reduces where one of its
redexes contracts, under binders too. Evaluation picks an order; the relation allows every order.
-/

namespace ClosedTypes

namespace Rules

inductive Contracts (rules : Rules) : Term → Term → Prop where
  | beta {x d b a} : Contracts rules (.app (.lam x d b) a) (b.instantiate x a)
  | erasure {t ty} : Contracts rules (.ann t ty) t
  | projection {elems i t} : elems[i.toNat]? = some t → Contracts rules (.proj (.tuple elems) i) t
  | branch {c t e} : Contracts rules (.prim .ite [.bool c, t, e]) (if c then t else e)
  | equation {e c fields args d} :
    rules.context.equation? e c = some d →
    Contracts rules (.elim e (.ctor c fields) args)
      (d.rhs.subst (.ofList (d.binders.zip (fields ++ args))))
  | fold {op args t} : ClosedTypes.fold op args = some t → Contracts rules (.prim op args) t
  | constructor {c args body} : rules.implementation? c = some body →
    Contracts rules (.ctor c args) (body.applyAll args)
  | eliminator {e s args body} :
    rules.implementation? e = some body → Contracts rules (.elim e s args)
      (body.applyAll (s :: args))

mutual

inductive Reduces (rules : Rules) : Term → Term → Prop where
  | here {t u} : rules.Contracts t u → Reduces rules t u
  | fn {f g a} : Reduces rules f g → Reduces rules (.app f a) (.app g a)
  | arg {f a b} : Reduces rules a b → Reduces rules (.app f a) (.app f b)
  | body {x d b c} : Reduces rules b c → Reduces rules (.lam x d b) (.lam x d c)
  | ascribed {t u ty} : Reduces rules t u → Reduces rules (.ann t ty) (.ann u ty)
  | fields {c as bs} : ReducesOne rules as bs → Reduces rules (.ctor c as) (.ctor c bs)
  | scrutinee {e s t args} : Reduces rules s t → Reduces rules (.elim e s args) (.elim e t args)
  | operands {e s as bs} : ReducesOne rules as bs → Reduces rules (.elim e s as) (.elim e s bs)
  | prim {op as bs} : ReducesOne rules as bs → Reduces rules (.prim op as) (.prim op bs)
  | tuple {as bs} : ReducesOne rules as bs → Reduces rules (.tuple as) (.tuple bs)
  | proj {t u i} : Reduces rules t u → Reduces rules (.proj t i) (.proj u i)

inductive ReducesOne (rules : Rules) : List Term → List Term → Prop where
  | head {t u ts} : Reduces rules t u → ReducesOne rules (t :: ts) (u :: ts)
  | tail {t ts us} : ReducesOne rules ts us → ReducesOne rules (t :: ts) (t :: us)

end

abbrev Reaches (rules : Rules) : Term → Term → Prop := Relation.ReflTransGen rules.Reduces

/-- The rules without the equations of implemented eliminators, which evaluation never uses. -/
def inForce (rules : Rules) : Rules :=
  { rules with
    context :=
      { rules.context with
        equations := rules.context.equations.filter fun key _ =>
          (rules.implementation? key.1).isNone } }

def Terminates (rules : Rules) (t : Term) : Prop := Acc (fun u t => rules.Reduces t u) t

theorem ReducesOne.length_eq {rules : Rules} {ts us : List Term} (h : rules.ReducesOne ts us) :
    ts.length = us.length := by
  induction ts generalizing us with
  | nil => cases h
  | cons t ts ih =>
    cases h with
    | head _ => rfl
    | tail h => rw [List.length_cons, List.length_cons, ih h]

end Rules

end ClosedTypes
