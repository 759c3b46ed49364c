import ClosedTypes.Reduction.Rules
import ClosedTypes.Term.Skeleton
import Mathlib.Logic.Relation
/-!
Reduction of skeletons: the rules without the names of binders. Folds are listed one by one; where
two of them apply they agree.
-/

namespace ClosedTypes

inductive One {α : Type} (r : α → α → Prop) : List α → List α → Prop where
  | head {a b : α} {as : List α} : r a b → One r (a :: as) (b :: as)
  | tail {a : α} {as bs : List α} : One r as bs → One r (a :: as) (a :: bs)

namespace Skeleton

inductive Folds : Operator → List Skeleton → Skeleton → Prop where
  | add {x y : Int64} : Folds .add [int x, int y] (int (x + y))
  | addSwap {x : Int64} {b : Skeleton} : (∀ n, b ≠ int n) →
    Folds .add [int x, b] (prim .add [b, int x])
  | addZero {a : Skeleton} : Folds .add [a, int 0] a
  | addMerge {t : Skeleton} {x y : Int64} : Folds .add [prim .add [t, int x], int y]
    (prim .add [t, int (x + y)])
  | sub {x y : Int64} : Folds .sub [int x, int y] (int (x - y))
  | subLiteral {a : Skeleton} {y : Int64} : (∀ n, a ≠ int n) →
    Folds .sub [a, int y] (prim .add [a, int (-y)])
  | subSelf {a : Skeleton} : Folds .sub [a, a] (int 0)
  | mul {x y : Int64} : Folds .mul [int x, int y] (int (x * y))
  | lt {x y : Int64} : Folds .lt [int x, int y] (bool (x < y))
  | eq {l k : Literal} : Folds .eq [node (.lit l) [], node (.lit k) []] (bool (l = k))
  | eqSelf {a : Skeleton} : Folds .eq [a, a] (bool true)
  | eqSwap {l : Literal} {b : Skeleton} :
    (∀ k, b ≠ node (.lit k) []) → Folds .eq [node (.lit l) [], b] (prim .eq [b, node (.lit l) []])
  | eqShift {t : Skeleton} {x y : Int64} : Folds .eq [prim .add [t, int x], int y]
    (prim .eq [t, int (y - x)])
  | falseAnd {b : Skeleton} : Folds .and [bool false, b] (bool false)
  | andFalse {a : Skeleton} : Folds .and [a, bool false] (bool false)
  | trueAnd {b : Skeleton} : Folds .and [bool true, b] b
  | andTrue {a : Skeleton} : Folds .and [a, bool true] a
  | trueOr {b : Skeleton} : Folds .or [bool true, b] (bool true)
  | orTrue {a : Skeleton} : Folds .or [a, bool true] (bool true)
  | falseOr {b : Skeleton} : Folds .or [bool false, b] b
  | orFalse {a : Skeleton} : Folds .or [a, bool false] a
  | not {b : Bool} : Folds .not [bool b] (bool !b)

def assigning (binders : List Name) (args : List Skeleton) : Variable → Skeleton
  | .free x => ((Index.ofList (binders.zip args)).find? x).getD (var (.free x))
  | v => var v

/-- Redexes and what they contract to. Operations that have an implementation go by it alone. -/
inductive Contracts (rules : Rules) : Skeleton → Skeleton → Prop where
  | beta {b a : Skeleton} : Contracts rules (app (lam b) a) (b.instantiate a)
  | erasure {t : Skeleton} {ty : Ty} : Contracts rules (node (.ann ty) [t]) t
  | projection {elems : List Skeleton} {i : UInt64} {t : Skeleton} :
    elems[i.toNat]? = some t → Contracts rules (node (.proj i) [node .tuple elems]) t
  | branch {c : Bool} {t e : Skeleton} : Contracts rules (prim .ite [bool c, t, e])
    (if c then t else e)
  | fold {op : Operator} {args : List Skeleton} {t : Skeleton} : Folds op args t →
    Contracts rules (prim op args) t
  | equation {e c : Name} {fields args : List Skeleton} {d : Equation} :
    rules.implementation? e = none → rules.implementation? c = none →
      rules.context.equation? e c = some d →
    d.binders.length = (fields ++ args).length →
    Contracts rules (node (.elim e) (node (.ctor c) fields :: args))
      ((d.rhs.skeleton []).replace (assigning d.binders (fields ++ args)))
  | constructor {c : Name} {args : List Skeleton} {body : Term} :
    rules.implementation? c = some body → Contracts rules (node (.ctor c) args)
      ((body.skeleton []).applyAll args)
  | eliminator {e : Name} {s : Skeleton} {args : List Skeleton} {body : Term} :
    rules.implementation? e = some body → Contracts rules (node (.elim e) (s :: args))
      ((body.skeleton []).applyAll (s :: args))

inductive Reduces (rules : Rules) : Skeleton → Skeleton → Prop where
  | here {t u : Skeleton} : Contracts rules t u → Reduces rules t u
  | body {b c : Skeleton} : Reduces rules b c → Reduces rules (lam b) (lam c)
  | part {h : Head} {ts us : List Skeleton} : One (Reduces rules) ts us →
    Reduces rules (node h ts) (node h us)

abbrev Reaches (rules : Rules) : Skeleton → Skeleton → Prop := Relation.ReflTransGen (Reduces rules)

abbrev Joins (rules : Rules) : Skeleton → Skeleton → Prop := Relation.Join (Reaches rules)

end Skeleton

structure Rules.Closed (rules : Rules) : Prop where
  rhs : ∀ {e c d}, rules.context.equation? e c = some d → ∀ x ∈ d.rhs.free, x ∈ d.binders
  body : ∀ {op body}, rules.implementation? op = some body → body.free = []

end ClosedTypes
