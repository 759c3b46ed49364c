import ClosedTypes.Proofs.Context.Congruence
import ClosedTypes.Proofs.Context.Instances
/-!
Evaluation does nothing but what the declarations say: each of its answers is reached by contracting
redexes, of the implemented operations only those of the loaded types, and each step is one without
names as well, so that no variable is caught on the way.
-/

namespace ClosedTypes

variable {known : Use → Prop} {rules : Rules} {ctx : Context} {typeNames : List Name}
  {t u a b : Term} {n k : Nat}

namespace Rules

/-- One redex contracts, with the names of variables as they are and up to the names of binders. -/
def Rewrites (rules : Rules) (t u : Term) : Prop :=
  rules.Reduces t u ∧ ∀ xs, Skeleton.Reduces rules (t.skeleton xs) (u.skeleton xs)

abbrev Convertible (rules : Rules) : Term → Term → Prop :=
  Relation.EqvGen fun t u => rules.Rewrites t u ∨ t.alpha u = true

theorem Reaches.rewrites (hrules : rules.Fitting known) (ht : t.Over known)
    (h : rules.Reaches t u) :
    Relation.ReflTransGen rules.Rewrites t u := by
  induction h with
  | refl => exact .refl
  | tail h hstep ih => exact ih.tail ⟨hstep, hstep.skeleton hrules (hrules.covered.reaches ht h)⟩

theorem Convertible.of_rewrites (h : Relation.ReflTransGen rules.Rewrites t u) :
    rules.Convertible t u := by
  induction h with
  | refl => exact .refl _
  | tail _ hstep ih => exact .trans _ _ _ ih (.rel _ _ (.inl hstep))

theorem Convertible.of_normalizes {v : Term} (ha : Relation.ReflTransGen rules.Rewrites a u)
    (hb : Relation.ReflTransGen rules.Rewrites b v) (h : u.alpha v = true) :
    rules.Convertible a b :=
  .trans _ _ _ (of_rewrites ha) (.trans _ _ _ (.rel _ _ (.inr h)) (.symm _ _ (of_rewrites hb)))

end Rules

/-- What evaluation finds it reaches by the rules of the context, and terms that it finds to be
equal are convertible. The rules are the equations and, for the operations of the loaded types
and no others, the implementations. -/
theorem Context.rewrites_of_evaluation {r : Evaluator} (hr : ctx.Reachable)
    (hrules : r.rules = (Rules.ofContext ctx).loadAll typeNames) :
    (∀ op body, r.rules.implementation? op = some body ↔
      ∃ typeName ∈ typeNames, op ∈ ctx.operations typeName ∧ ∃ d, ctx.implementation? op = some d ∧
      d.body = body) ∧
    (∀ e c d, r.rules.inForce.context.equation? e c = some d ↔ r.rules.implementation? e = none ∧
      ctx.equation? e c = some d) ∧
    (∀ t u, t.Over ctx.Saturates → (r.whnf t).1 = .ok u ∨ (r.normalize t).1 = .ok u →
      Relation.ReflTransGen r.rules.inForce.Rewrites t u) ∧
    ∀ a b, a.Over ctx.Saturates → b.Over ctx.Saturates → (r.equal a b).1 = .ok true →
    r.rules.inForce.Convertible a b := by
  have h := hr.wellFormed
  have hover : r.rules.Over ctx.Saturates :=
    hrules ▸ h.over_loadAll (fun _ => saturates_of_admits) typeNames
  have hfit : r.rules.inForce.Fitting ctx.Saturates :=
    hrules ▸ h.fitting_loadAll (fun _ => saturates_of_admits) (fun _ => id) typeNames
  have hnormal {t u : Term} {n k : Nat} (ht : t.Over ctx.Saturates)
      (hu : (r.rules.normalize n t).1 = some (u, k)) :
      Relation.ReflTransGen r.rules.inForce.Rewrites t u :=
    (Rules.normalizes_inForce hover ht hu).reaches.rewrites hfit ht
  refine ⟨fun op body => ?_, fun e c d => ?_, fun t u ht hu => ?_, fun a b ha hb hequal => ?_⟩
  · rw [hrules]
    exact Rules.implementation?_loadAll_ofContext
  · rw [hrules]
    exact Rules.equation?_inForce_loadAll
  · rcases hu with hu | hu
    · obtain ⟨k, hk⟩ := Evaluator.fst_ask_eq_ok_iff.1 hu
      exact (Rules.runs_inForce hover ht hk).reaches.rewrites hfit ht
    · obtain ⟨k, hk⟩ := Evaluator.fst_ask_eq_ok_iff.1 hu
      exact hnormal ht hk
  · obtain ⟨k, hk⟩ := Evaluator.fst_ask_eq_ok_iff.1 hequal
    rcases Rules.equal_eq_some_iff.1 hk with ⟨halpha, -, -⟩ | ⟨-, u, m, v, hu, hv, halpha⟩
    · exact .rel _ _ (.inr halpha)
    · exact .of_normalizes (hnormal ha hu) (hnormal hb hv) halpha

namespace Context

def look (t : Term) : Term := .elim "Look" (.ctor "Mk" [t]) [.lam "x" none (.var "x")]

theorem over_look {t : Term} (ht : t.Over withLooks.Saturates) :
    (look t).Over withLooks.Saturates := by
  have hmk : withLooks.Admits (.constructor "Mk" 1) := by
    rw [withLooks_eq]
    exact ⟨⟨"Mk", .arrow (.prim .int) (.const "T" []), "T"⟩, rfl, rfl⟩
  have hlook : withLooks.Admits (.eliminator "Look" 1) := by
    rw [withLooks_eq]
    exact ⟨⟨"Look", .arrow (.const "T" []) (.arrow (.arrow (.prim .int) (.prim .int)) (.prim .int)),
      "T", none⟩, rfl, rfl⟩
  exact Term.over_elim.2 ⟨saturates_of_admits hlook,
    Term.over_ctor.2 ⟨saturates_of_admits hmk, List.forall_mem_singleton.2 ht⟩,
    List.forall_mem_singleton.2 (Term.over_lam.2 Term.over_var)⟩

theorem whnf_look :
    (((Evaluator.start withLooks 20).load "T").whnf (look (.int 2))).1 = .ok (.int 1) := by
  rw [withLooks_eq]
  cbv

theorem equal_look :
    (((Evaluator.start withLooks 40).load "T").equal (look (.int 2))
      (look (.prim .add [.int 1, .int 1]))).1 = .ok true := by
  rw [withLooks_eq]
  cbv

theorem look_rewrites :
    Relation.ReflTransGen ((Rules.ofContext withLooks).loadAll ["T"]).inForce.Rewrites
      (look (.int 2)) (.int 1) ∧
      ((Rules.ofContext withLooks).loadAll ["T"]).inForce.Convertible (look (.int 2))
        (look (.prim .add [.int 1, .int 1])) := by
  have hone : (look (.int 2)).Over withLooks.Saturates := over_look Term.over_lit
  have hsum : (look (.prim .add [.int 1, .int 1])).Over withLooks.Saturates :=
    over_look (by simp [Term.int])
  have hrules (ctx : Context) (n : Nat) : ((Evaluator.start ctx n).load "T").rules =
      (Rules.ofContext ctx).loadAll ["T"] := rfl
  have hfound := (rewrites_of_evaluation withLooks_reachable (hrules _ 20)).2.2.1
  have hconvertible := (rewrites_of_evaluation withLooks_reachable (hrules _ 40)).2.2.2
  rw [hrules] at hfound hconvertible
  constructor
  · exact hfound _ _ hone (.inl whnf_look)
  · exact hconvertible _ _ hone hsum equal_look

end Context

end ClosedTypes
