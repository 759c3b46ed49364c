import ClosedTypes.Proofs.Index
import ClosedTypes.Proofs.Term.Free
import ClosedTypes.Term.Substitution
/-!
Substitution form by form. Where nothing has to be avoided no binder is renamed.
-/

namespace ClosedTypes.Term

variable {avoid : List Name} {m : Index Name Term} {t f a s body : Term} {ts args : List Term}
  {x : Name} {dom : Option Ty}

def replaced (avoid : List Name) (m : Index Name Term) (t : Term) : Term :=
  (substAvoiding avoid m t).1

theorem substAllAvoiding_eq : (substAllAvoiding avoid m ts).1 = ts.map (replaced avoid m) := by
  induction ts with
  | nil => rw [substAllAvoiding]; rfl
  | cons t ts ih =>
    rw [substAllAvoiding, List.map_cons, ← ih]
    rfl

theorem replaced_var : replaced avoid m (.var x) = (m.find? x).getD (.var x) := by
  unfold replaced
  rw [substAvoiding]
  split
  · rename_i u h
    show u = _
    rw [h]
    rfl
  · rename_i h
    show var x = _
    rw [h]
    rfl

@[simp] theorem replaced_lit {l : Literal} : replaced avoid m (.lit l) = .lit l := by
  unfold replaced
  rw [substAvoiding]

@[simp] theorem replaced_app :
    replaced avoid m (.app f a) = .app (replaced avoid m f) (replaced avoid m a) := by
  unfold replaced
  rw [substAvoiding]

@[simp] theorem replaced_ann {ty : Ty} :
    replaced avoid m (.ann t ty) = .ann (replaced avoid m t) ty := by
  unfold replaced
  rw [substAvoiding]

@[simp] theorem replaced_ctor :
    replaced avoid m (.ctor x args) = .ctor x (args.map (replaced avoid m)) := by
  rw [← substAllAvoiding_eq]
  unfold replaced
  rw [substAvoiding]

@[simp] theorem replaced_elim :
    replaced avoid m (.elim x s args) =
      .elim x (replaced avoid m s) (args.map (replaced avoid m)) := by
  rw [← substAllAvoiding_eq]
  unfold replaced
  rw [substAvoiding]

@[simp] theorem replaced_prim {op : Operator} :
    replaced avoid m (.prim op args) = .prim op (args.map (replaced avoid m)) := by
  rw [← substAllAvoiding_eq]
  unfold replaced
  rw [substAvoiding]

@[simp] theorem replaced_tuple :
    replaced avoid m (.tuple ts) = .tuple (ts.map (replaced avoid m)) := by
  rw [← substAllAvoiding_eq]
  unfold replaced
  rw [substAvoiding]

@[simp] theorem replaced_proj {i : UInt64} :
    replaced avoid m (.proj t i) = .proj (replaced avoid m t) i := by
  unfold replaced
  rw [substAvoiding]

theorem replaced_lam_of_idle (h : (m.erase x).keys.any (· ∈ body.free) = false) :
    replaced avoid m (.lam x dom body) = .lam x dom body := by
  unfold replaced
  rw [substAvoiding]
  simp only [h, Bool.false_eq_true, if_false]

theorem replaced_lam_of_mem_free (h : (m.erase x).keys.any (· ∈ body.free) = true)
    (hx : x ∉ avoid) :
    replaced avoid m (.lam x dom body) = .lam x dom (replaced avoid (m.erase x) body) := by
  unfold replaced
  rw [substAvoiding]
  simp only [h, if_true, if_neg hx]

theorem replaced_lam_of_captures (h : (m.erase x).keys.any (· ∈ body.free) = true)
    (hx : x ∈ avoid) {y : Name} (hy : y = x.freshVariant (avoid ++ body.free ++ (m.erase x).keys)) :
    replaced avoid m (.lam x dom body) =
      .lam y dom (replaced avoid (m.erase x) (replaced [y] (.ofList [(x, .var y)]) body)) := by
  subst hy
  unfold replaced
  rw [substAvoiding]
  simp only [h, if_true, if_pos hx]

theorem size_replaced_var (t : Term) (avoid : List Name) (x y : Name) :
    (replaced avoid (.ofList [(x, .var y)]) t).size = t.size :=
  (substAvoiding avoid _ t).2 (renames_var x y)

theorem subst_eq_replaced (t : Term) (m : Index Name Term) :
    t.subst m = replaced (m.values.flatMap free) m t := rfl

end ClosedTypes.Term
