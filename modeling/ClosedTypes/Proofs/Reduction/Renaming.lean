import ClosedTypes.Proofs.Reduction.Budget
import ClosedTypes.Proofs.Reduction.Declared
/-!
The names of binders make no difference to evaluation. Terms that are equal up to these take the
same steps, whichever of their binders have to be renamed on the way, and end in terms that are
equal up to them again.
-/

namespace ClosedTypes

variable {known : Use → Prop} {rules : Rules} {ctx : Context} {typeNames : List Name}
  {t u a b : Term} {ts us : List Term}
  {xs ys : List Name} {n : Nat}

namespace Term

def Variant (xs ys : List Name) (t u : Term) : Prop := t.skeleton xs = u.skeleton ys

theorem variant_nil_iff : Variant [] [] t u ↔ t.alpha u = true := skeleton_inj

theorem forall₂_variant_iff :
    List.Forall₂ (Variant xs ys) ts us ↔ ts.map (skeleton xs) = us.map (skeleton ys) := by
  rw [← List.forall₂_eq_eq_eq, List.forall₂_map_left_iff, List.forall₂_map_right_iff]
  rfl

end Term

open Term

namespace Rules

theorem alike_of_variant (h : Variant xs ys t u) : Alike Variant xs ys t u := by
  unfold Variant at h
  cases t with
  | var x =>
    cases u with
    | var y => exact .var h
    | _ => simp [Skeleton.app, Skeleton.prim] at h
  | lit l =>
    rw [eq_lit_of_skeleton h.symm]
    exact .lit
  | lam x dom b =>
    obtain ⟨y, dom', c, rfl, hbody⟩ := exists_of_skeleton_lam h.symm
    exact .lam hbody.symm fun b' c' h => congrArg Skeleton.lam h
  | app f a =>
    cases u with
    | app g b =>
      simp only [skeleton_app, Skeleton.app, Skeleton.node.injEq, List.cons.injEq, true_and,
        and_true] at h
      exact .app h.1 h.2
    | _ => simp [Skeleton.app, Skeleton.prim] at h
  | ann t ty =>
    cases u with
    | ann u ty' =>
      simp only [skeleton_ann, Skeleton.node.injEq, Head.ann.injEq, List.cons.injEq, and_true] at h
      obtain ⟨rfl, h⟩ := h
      exact .ann h
    | _ => simp [Skeleton.app, Skeleton.prim] at h
  | ctor c args =>
    rw [skeleton_ctor] at h
    obtain ⟨args', rfl, hargs⟩ := exists_of_skeleton_ctor h.symm
    exact .ctor (forall₂_variant_iff.2 hargs.symm)
  | elim e s args =>
    cases u with
    | elim e' s' args' =>
      simp only [skeleton_elim, Skeleton.node.injEq, Head.elim.injEq, List.cons.injEq] at h
      obtain ⟨rfl, hs, hargs⟩ := h
      exact .elim hs (forall₂_variant_iff.2 hargs)
    | _ => simp [Skeleton.app, Skeleton.prim] at h
  | prim op args =>
    rw [skeleton_prim] at h
    obtain ⟨args', rfl, hargs⟩ := exists_of_skeleton_prim h.symm
    exact .prim (forall₂_variant_iff.2 hargs.symm)
  | tuple elems =>
    rw [skeleton_tuple] at h
    obtain ⟨elems', rfl, helems⟩ := exists_of_skeleton_tuple h.symm
    exact .tuple (forall₂_variant_iff.2 helems.symm)
  | proj t i =>
    cases u with
    | proj u j =>
      simp only [skeleton_proj, Skeleton.node.injEq, Head.proj.injEq, List.cons.injEq, and_true]
        at h
      obtain ⟨rfl, h⟩ := h
      exact .proj h
    | _ => simp [Skeleton.app, Skeleton.prim] at h

theorem variant_of_alike (h : Alike Variant xs ys t u) : Variant xs ys t u := by
  unfold Variant
  cases h with
  | var h => exact h
  | lit => rfl
  | app hf ha => rw [skeleton_app, skeleton_app, hf, ha]
  | lam hb _ => exact congrArg Skeleton.lam hb
  | ann h => rw [skeleton_ann, skeleton_ann, h]
  | ctor h => rw [skeleton_ctor, skeleton_ctor, forall₂_variant_iff.1 h]
  | elim hs h => rw [skeleton_elim, skeleton_elim, hs, forall₂_variant_iff.1 h]
  | prim h => rw [skeleton_prim, skeleton_prim, forall₂_variant_iff.1 h]
  | tuple h => rw [skeleton_tuple, skeleton_tuple, forall₂_variant_iff.1 h]
  | proj h => rw [skeleton_proj, skeleton_proj, h]

theorem rel_fold_of_variant {op : Operator} (h : List.Forall₂ (Variant xs ys) ts us) :
    Option.Rel (Variant xs ys) (fold op ts) (fold op us) := by
  rw [forall₂_variant_iff] at h
  cases hts : fold op ts with
  | none =>
    cases hus : fold op us with
    | none => exact .none
    | some v =>
      obtain ⟨w, hw⟩ := Skeleton.exists_fold (h ▸ Skeleton.folds_of_fold hus)
      rw [hts] at hw
      cases hw
  | some v =>
    have hv : Skeleton.Folds op (ts.map (skeleton xs)) (v.skeleton xs) := Skeleton.folds_of_fold hts
    rw [h] at hv
    obtain ⟨w, hw⟩ := Skeleton.exists_fold hv
    rw [hw]
    exact .some (hv.unique (Skeleton.folds_of_fold hw))

/-- Rules with closed right-hand sides and bodies do not tell variants apart: these get one
skeleton in place of a binder's variable or of an equation's parameters, whatever its name was. -/
theorem Fitting.lockstep (h : rules.Fitting known) : Lockstep known rules rules Variant where
  agree := ⟨fun _ _ _ => rfl, fun _ => rfl⟩
  covered := h.covered
  alike := ⟨alike_of_variant, variant_of_alike⟩
  beta {xs ys x y _ _ _ b c _} hf ha := by
    have hbody : b.skeleton (x :: xs) = c.skeleton (y :: ys) := Skeleton.lam.inj hf
    unfold Variant
    rw [skeleton_instantiate, skeleton_instantiate, hbody, ha]
  equation _ hd he hc hlen hargs := by
    have harity := (h.arity hd he hc).trans hlen.symm
    unfold Variant
    rw [h.skeleton_subst_rhs hd harity, h.skeleton_subst_rhs hd (harity.trans hargs.length_eq),
      forall₂_variant_iff.1 hargs]
  fold := rel_fold_of_variant
  body hbody := by
    unfold Variant
    rw [← skeleton_of_closed (θ := .var) (h.closed.body hbody), Skeleton.replace_var]

end Rules

namespace Evaluator

variable {r : Evaluator} {R : Term → Term → Prop}

theorem ask_of_tracks (question question' : Rules → Nat → Option (Term × Nat))
    (h : Tracks 0 R (question r.rules r.remaining) (question' r.rules r.remaining)) :
    ((r.ask question).1 = .error (.outOfFuel r.limit) ∧
      (r.ask question').1 = .error (.outOfFuel r.limit) ∨
      ∃ u v, (r.ask question).1 = .ok u ∧ (r.ask question').1 = .ok v ∧ R u v) ∧
    (r.ask question).2.steps = (r.ask question').2.steps := by
  generalize hq : question r.rules r.remaining = o, hq' : question' r.rules r.remaining = o' at h
  cases h with
  | both hrel =>
    rw [ask_of_some hq, ask_of_some hq']
    exact ⟨.inr ⟨_, _, rfl, rfl, hrel⟩, rfl⟩
  | neither =>
    rw [ask_of_none hq, ask_of_none hq']
    exact ⟨.inl ⟨rfl, rfl⟩, rfl⟩
  | second h => exact absurd h (Nat.not_lt_zero _)

end Evaluator

theorem Context.Reachable.tracks_normalize {rules : Rules} (hr : ctx.Reachable)
    (hrules : rules = (Rules.ofContext ctx).loadAll typeNames)
    (ha : a.Over ctx.Saturates) (hb : b.Over ctx.Saturates) (hab : a.alpha b = true) (n : Nat) :
    Tracks 0 (fun u v => u.alpha v = true) (rules.normalize n a).1 (rules.normalize n b).1 := by
  have h := hr.wellFormed
  have hover : rules.Over ctx.Saturates :=
    hrules ▸ h.over_loadAll (fun _ => saturates_of_admits) typeNames
  have hfit : rules.inForce.Fitting ctx.Saturates :=
    hrules ▸ h.fitting_loadAll (fun _ => saturates_of_admits) (fun _ => id) typeNames
  have htracks := hfit.lockstep.normalize 0 ha (variant_nil_iff.2 hab) (n := n)
  have hvariant : Variant [] [] = fun u v => u.alpha v = true :=
    funext₂ fun _ _ => propext variant_nil_iff
  rwa [hvariant, Nat.add_zero, Rules.agree_inForce.normalize_eq hover ha,
    Rules.agree_inForce.normalize_eq hover hb] at htracks

/-- Terms that are equal up to bound names have equal normal forms up to these, after the same
number of steps, or both have none within the budget. The shortcut of definitional equality thus
finds what normalization would. -/
theorem Context.normalize_variant {r : Evaluator} (hr : ctx.Reachable)
    (hrules : r.rules = (Rules.ofContext ctx).loadAll typeNames)
    (ha : a.Over ctx.Saturates) (hb : b.Over ctx.Saturates) (hab : a.alpha b = true) :
    ((r.normalize a).1 = .error (.outOfFuel r.limit) ∧
      (r.normalize b).1 = .error (.outOfFuel r.limit) ∨
      ∃ u v, (r.normalize a).1 = .ok u ∧ (r.normalize b).1 = .ok v ∧ u.alpha v = true) ∧
    (r.normalize a).2.steps = (r.normalize b).2.steps :=
  Evaluator.ask_of_tracks (fun rules n => (rules.normalize n a).1)
    (fun rules n => (rules.normalize n b).1)
    (hr.tracks_normalize hrules ha hb hab r.remaining)

namespace Context

def constantLook (x y : Name) : Term := .app (.lam x none (.lam y none (look (.var x)))) (.var "y")

theorem over_constantLook {x y : Name} : (constantLook x y).Over withLooks.Saturates :=
  Term.over_app.2 ⟨Term.over_lam.2 (Term.over_lam.2 (over_look Term.over_var)), Term.over_var⟩

def looking : Evaluator := (Evaluator.start withLooks 40).load "T"

theorem normalize_constantLook : (looking.normalize (constantLook "x" "y")).1 =
    .ok (.lam "y'1" none (.prim .ite [.prim .eq [.var "y", .int 2], .int 1, .int 0])) := by
  have hbeta : (Term.lam "x" none (.lam "y" none (look (.var "x")))).beta? (.var "y") =
      some (.lam "y'1" none (look (.var "y"))) := by decide +kernel
  have hstep : (looking.rules.step 40 (constantLook "x" "y")).1 =
      some (some (.lam "y'1" none (look (.var "y"))), 40) := by
    rw [constantLook, Rules.step_app, Rules.whnf_of_step Rules.step_lam, Option.map_some, hbeta,
      Option.some_or]
  have hwhnf := Rules.whnf_eq_some_iff.2
    (.inr ⟨_, 39, hstep, Rules.whnf_of_step Rules.step_lam⟩)
  refine Evaluator.fst_ask_eq_ok_iff.2 ⟨29, ?_⟩
  change (looking.rules.normalize 40 (constantLook "x" "y")).1 = _
  rw [Rules.normalize_eq_bind, hwhnf, looking, withLooks_eq]
  cbv

theorem normalize_constantLook_variant :
    ∃ u v, (looking.normalize (constantLook "x" "y")).1 = .ok u ∧
    (looking.normalize (constantLook "u" "v")).1 = .ok v ∧
      u.alpha v = true ∧ (looking.normalize (constantLook "x" "y")).2.steps =
        (looking.normalize (constantLook "u" "v")).2.steps := by
  have hrules (ctx : Context) (n : Nat) : ((Evaluator.start ctx n).load "T").rules =
      (Rules.ofContext ctx).loadAll ["T"] := rfl
  have halpha : (constantLook "x" "y").alpha (constantLook "u" "v") = true := by decide
  obtain ⟨⟨hfailed, -⟩ | ⟨u, v, hu, hv, huv⟩, hsteps⟩ :=
    normalize_variant withLooks_reachable (hrules _ 40) over_constantLook over_constantLook halpha
  · have hfailed : (looking.normalize (constantLook "x" "y")).1 = .error (.outOfFuel 40) := hfailed
    rw [normalize_constantLook] at hfailed
    cases hfailed
  · exact ⟨u, v, hu, hv, huv, hsteps⟩

end Context

end ClosedTypes
