import ClosedTypes.Proofs.Term.Capture
import ClosedTypes.Proofs.Term.Skeleton
import ClosedTypes.Term.Frame
/-!
Equality up to bound names. It is equality of nameless forms, whose annotations of binders are left
out; so it is an equivalence that every form of terms keeps, and it does not see how the bound
variables of either side are called.
-/

namespace ClosedTypes.Term

variable {r : Term → Term → Prop} {t u a b : Term} {frames : List Frame}

structure Congruent (r : Term → Term → Prop) : Prop extends Equivalence r where
  app {f g a b : Term} : r f g → r a b → r (app f a) (app g b)
  lam {b c : Term} (x : Name) (dom dom' : Option Ty) : r b c → r (lam x dom b) (lam x dom' c)
  ann {t u : Term} (ty : Ty) : r t u → r (ann t ty) (ann u ty)
  ctor {ts us : List Term} (c : Name) : List.Forall₂ r ts us → r (ctor c ts) (ctor c us)
  elim {s t : Term} {ts us : List Term} (e : Name) : r s t → List.Forall₂ r ts us →
    r (elim e s ts) (elim e t us)
  prim {ts us : List Term} (op : Operator) : List.Forall₂ r ts us → r (prim op ts) (prim op us)
  tuple {ts us : List Term} : List.Forall₂ r ts us → r (tuple ts) (tuple us)
  proj {t u : Term} (i : UInt64) : r t u → r (proj t i) (proj u i)

namespace Congruent

variable (h : Congruent r)
include h

theorem forall₂_at (hab : r a b) (before after : List Term) :
    List.Forall₂ r (before ++ a :: after) (before ++ b :: after) := by
  have hsame (ts : List Term) : List.Forall₂ r ts ts := List.forall₂_same.2 fun t _ => h.refl t
  exact List.rel_append (hsame before) (.cons hab (hsame after))

theorem frame (hab : r a b) (frame : Frame) : r (frame.fill a) (frame.fill b) := by
  cases frame with
  | fn a => exact h.app hab (h.refl a)
  | arg f => exact h.app (h.refl f) hab
  | body x dom => exact h.lam x dom dom hab
  | ascribed ty => exact h.ann ty hab
  | field c before after => exact h.ctor c (h.forall₂_at hab before after)
  | scrutinee e args => exact h.elim e hab (List.forall₂_same.2 fun t _ => h.refl t)
  | rest e s before after => exact h.elim e (h.refl s) (h.forall₂_at hab before after)
  | operand op before after => exact h.prim op (h.forall₂_at hab before after)
  | component before after => exact h.tuple (h.forall₂_at hab before after)
  | projected i => exact h.proj i hab

theorem fill (hab : r a b) (frames : List Frame) : r (fill frames a) (fill frames b) := by
  induction frames with
  | nil => exact hab
  | cons frame frames ih => exact h.frame ih frame

end Congruent

/-- One binder of `t`, wherever it stands, gets a name `y` that is not free below it, and what it
binds follows. -/
inductive Rebinds : Term → Term → Prop where
  | at (frames : List Frame) (x y : Name) (dom : Option Ty) (b : Term) (fresh : y ∉ b.free) :
    Rebinds (fill frames (lam x dom b)) (fill frames (lam y dom (b.instantiate x (var y))))

theorem alpha_lam_instantiate {x y : Name} {dom : Option Ty} (hy : y ∉ b.free) :
    (lam x dom b).alpha (lam y dom (b.instantiate x (var y))) = true := by
  have hbody : (b.instantiate x (var y)).namelessIn [y] = b.namelessIn [x] :=
    namelessIn_replaced_var b (renamed_cons hy)
  rw [alpha_iff, nameless, nameless, namelessIn, namelessIn, hbody]

theorem congruent_alpha : Congruent fun t u => t.alpha u = true := by
  have each {ts us : List Term} (h : List.Forall₂ (fun t u => t.alpha u = true) ts us) :
      ts.map (skeleton []) = us.map (skeleton []) :=
    List.forall₂_eq_eq_eq ▸ List.forall₂_map_left_iff.2
      (List.forall₂_map_right_iff.2 (h.imp fun _ _ => skeleton_inj.2))
  constructor
  case toEquivalence =>
    refine ⟨fun t => alpha_iff.2 rfl, fun h => alpha_iff.2 (alpha_iff.1 h).symm, fun h h' => ?_⟩
    exact alpha_iff.2 ((alpha_iff.1 h).trans (alpha_iff.1 h'))
  all_goals intros; refine skeleton_inj.1 (?_ : skeleton [] _ = _)
  case app hf ha => rw [skeleton_app, skeleton_app, skeleton_inj.2 hf, skeleton_inj.2 ha]
  case lam hb => rw [skeleton_lam, skeleton_lam, skeleton_inj.2 hb]
  case ann ht => rw [skeleton_ann, skeleton_ann, skeleton_inj.2 ht]
  case ctor hts => rw [skeleton_ctor, skeleton_ctor, each hts]
  case elim hs hts => rw [skeleton_elim, skeleton_elim, skeleton_inj.2 hs, each hts]
  case prim hts => rw [skeleton_prim, skeleton_prim, each hts]
  case tuple hts => rw [skeleton_tuple, skeleton_tuple, each hts]
  case proj ht => rw [skeleton_proj, skeleton_proj, skeleton_inj.2 ht]

theorem Rebinds.alpha (h : Rebinds t u) : t.alpha u = true := by
  obtain ⟨frames, x, y, dom, b, hy⟩ := h
  exact congruent_alpha.fill (alpha_lam_instantiate hy) frames

theorem alpha_of_rebinds (h : Relation.ReflTransGen Rebinds t u) : t.alpha u = true := by
  induction h with
  | refl => exact congruent_alpha.refl t
  | tail _ hstep ih => exact congruent_alpha.trans ih hstep.alpha

/-- The comparison decides equality of the nameless forms whose binders carry no annotations. So
it is an equivalence, every form of terms keeps it, and renaming bound variables on either side,
step by step and without capture, does not change its answer. -/
theorem alpha_compares_nameless :
    (∀ t u : Term, t.alpha u = true ↔ t.nameless.bare = u.nameless.bare) ∧
      Congruent (fun t u => t.alpha u = true) ∧
      ∀ t t' u u', Relation.ReflTransGen Rebinds t t' → Relation.ReflTransGen Rebinds u u' →
      t'.alpha u' = t.alpha u := by
  refine ⟨fun t u => alpha_iff, congruent_alpha, fun t t' u u' ht hu => ?_⟩
  have ht := alpha_iff.1 (alpha_of_rebinds ht)
  have hu := alpha_iff.1 (alpha_of_rebinds hu)
  rw [Bool.eq_iff_iff, alpha_iff, alpha_iff, ht, hu]

theorem alpha_rebound_under_frame :
    (lam "x" none (var "y")).alpha (lam "y" none (var "y")) = false ∧
      (app (var "f")
        (lam "y" (some (.prim .int)) (lam "y'1" none (app (var "y") (var "y'1"))))).alpha
        (app (var "f") (lam "z" none (lam "x" (some (.prim .int)) (app (var "z") (var "x"))))) =
          true := by
  obtain ⟨hnameless, hcongruent, hrename⟩ := alpha_compares_nameless
  have hinner : (lam "y" none (app (var "x") (var "y"))).instantiate "x" (var "y") =
      lam "y'1" none (app (var "y") (var "y'1")) := by decide +kernel
  have hstep :=
    Rebinds.at [.arg (var "f")] "x" "y" (some (.prim .int)) (lam "y" none (app (var "x") (var "y")))
      (by decide)
  rw [hinner] at hstep
  refine ⟨Bool.eq_false_iff.2 fun h => ?_, ?_⟩
  · have hsame := (hnameless _ _).1 h
    simp [nameless, namelessIn, Nameless.bare] at hsame
  · refine (hrename _ _ _ _ (.single hstep) .refl).trans ?_
    exact hcongruent.app (hcongruent.refl _) ((hnameless _ _).2 rfl)

end ClosedTypes.Term
