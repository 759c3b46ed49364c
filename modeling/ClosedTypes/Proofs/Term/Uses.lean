import ClosedTypes.Proofs.Term.Capture
/-!
The uses that a term makes of operations. Substitution makes none that the term or a replacement
does not.
-/

namespace ClosedTypes

/-- An operation and the number of arguments that it is applied to; the scrutinee of an
eliminator does not count. -/
inductive Use where
  | constructor (c : Name) (fields : Nat)
  | eliminator (e : Name) (rest : Nat)

namespace Term

mutual

def uses : Term → List Use
  | var _ => []
  | app f a => uses f ++ uses a
  | lam _ _ b => uses b
  | ann t _ => uses t
  | ctor c args => .constructor c args.length :: usesAll args
  | elim e s args => .eliminator e args.length :: (uses s ++ usesAll args)
  | lit _ => []
  | prim _ args => usesAll args
  | tuple elems => usesAll elems
  | proj t _ => uses t

def usesAll : List Term → List Use
  | [] => []
  | t :: ts => uses t ++ usesAll ts

end

def Over (known : Use → Prop) (t : Term) : Prop := ∀ use ∈ t.uses, known use

variable {known : Use → Prop} {t f a s b : Term} {ts args : List Term} {x e : Name}
  {dom : Option Ty}
  {m : Index Name Term}

theorem forall_mem_usesAll : (∀ use ∈ usesAll ts, known use) ↔ ∀ t ∈ ts, t.Over known := by
  induction ts with
  | nil => simp [usesAll]
  | cons t ts ih =>
    rw [usesAll, List.forall_mem_append, ih, List.forall_mem_cons]
    rfl

@[simp] theorem over_var : (var x).Over known := nofun

@[simp] theorem over_lit {l : Literal} : (lit l).Over known := nofun

@[simp] theorem over_app : (app f a).Over known ↔ f.Over known ∧ a.Over known :=
  List.forall_mem_append

@[simp] theorem over_lam : (lam x dom b).Over known ↔ b.Over known := Iff.rfl

@[simp] theorem over_ann {ty : Ty} : (ann t ty).Over known ↔ t.Over known := Iff.rfl

@[simp] theorem over_proj {i : UInt64} : (proj t i).Over known ↔ t.Over known := Iff.rfl

@[simp] theorem over_ctor :
    (ctor x args).Over known ↔ known (.constructor x args.length) ∧ ∀ t ∈ args, t.Over known := by
  unfold Over
  rw [uses, List.forall_mem_cons, forall_mem_usesAll]
  rfl

@[simp] theorem over_prim {op : Operator} : (prim op args).Over known ↔ ∀ t ∈ args, t.Over known :=
  forall_mem_usesAll

@[simp] theorem over_tuple : (tuple args).Over known ↔ ∀ t ∈ args, t.Over known :=
  forall_mem_usesAll

@[simp] theorem over_elim : (elim e s args).Over known ↔
    known (.eliminator e args.length) ∧ s.Over known ∧ ∀ t ∈ args, t.Over known := by
  unfold Over
  rw [uses, List.forall_mem_cons, List.forall_mem_append, forall_mem_usesAll]
  rfl

theorem Over.mono {known' : Use → Prop} (ht : t.Over known) (h : ∀ use, known use → known' use) :
    t.Over known' :=
  fun use huse => h use (ht use huse)

theorem Over.applyAll (hf : f.Over known) (hargs : ∀ t ∈ args, t.Over known) :
    (f.applyAll args).Over known := by
  induction args generalizing f with
  | nil => exact hf
  | cons a args ih =>
    rw [List.forall_mem_cons] at hargs
    exact ih (over_app.2 ⟨hf, hargs.1⟩) hargs.2

theorem over_replaced (t : Term) {avoid : List Name} {m : Index Name Term} (ht : t.Over known)
    (hm : ∀ y u, m.find? y = some u → u.Over known) : (replaced avoid m t).Over known := by
  have each {ts : List Term} (h : ∀ t ∈ ts, (replaced avoid m t).Over known) :
      ∀ u ∈ ts.map (replaced avoid m), u.Over known :=
    List.forall_mem_map.2 h
  match t with
  | .var x =>
    rw [replaced_var]
    cases h : m.find? x with
    | none => exact ht
    | some u => exact hm x u h
  | .lit l => rwa [replaced_lit]
  | .app f a =>
    rw [over_app] at ht
    rw [replaced_app, over_app]
    exact ⟨over_replaced f ht.1 hm, over_replaced a ht.2 hm⟩
  | .lam x dom b =>
    have hrest : ∀ y u, (m.erase x).find? y = some u → u.Over known :=
      fun y u hu => hm y u (Index.find?_of_find?_erase hu)
    by_cases hidle : (m.erase x).keys.any (· ∈ b.free) = true
    · by_cases hx : x ∈ avoid
      -- the body is renamed first, by a substitution that only puts a variable for the binder
      · obtain ⟨y, hy⟩ : ∃ y, y = x.freshVariant (avoid ++ b.free ++ (m.erase x).keys) := ⟨_, rfl⟩
        have hrenamed : (replaced [y] (.ofList [(x, .var y)]) b).Over known := by
          refine over_replaced b ht fun z u hu => ?_
          cases List.mem_singleton.1 (Index.mem_of_find?_ofList hu)
          exact over_var
        have hsize := size_replaced_var b [y] x y
        rw [replaced_lam_of_captures hidle hx hy, over_lam]
        exact over_replaced _ hrenamed hrest
      · rw [replaced_lam_of_mem_free hidle hx, over_lam]
        exact over_replaced b ht hrest
    · rw [replaced_lam_of_idle (Bool.eq_false_iff.2 hidle)]
      exact ht
  | .ann t ty =>
    rw [replaced_ann, over_ann]
    exact over_replaced t ht hm
  | .ctor c args =>
    rw [over_ctor] at ht
    rw [replaced_ctor, over_ctor, List.length_map]
    exact ⟨ht.1, each fun t h => over_replaced t (ht.2 t h) hm⟩
  | .elim e s args =>
    rw [over_elim] at ht
    rw [replaced_elim, over_elim, List.length_map]
    exact ⟨ht.1, over_replaced s ht.2.1 hm, each fun t h => over_replaced t (ht.2.2 t h) hm⟩
  | .prim op args =>
    rw [over_prim] at ht
    rw [replaced_prim, over_prim]
    exact each fun t h => over_replaced t (ht t h) hm
  | .tuple elems =>
    rw [over_tuple] at ht
    rw [replaced_tuple, over_tuple]
    exact each fun t h => over_replaced t (ht t h) hm
  | .proj t i =>
    rw [replaced_proj, over_proj]
    exact over_replaced t ht hm
termination_by t.size
decreasing_by
  all_goals
    simp only [size]
    try have := size_lt_of_mem h
    omega

theorem Over.subst_ofList {bindings : List (Name × Term)} (ht : t.Over known)
    (h : ∀ p ∈ bindings, p.2.Over known) :
    (t.subst (.ofList bindings)).Over known :=
  over_replaced t ht fun _ _ hu => h _ (Index.mem_of_find?_ofList hu)

end Term

end ClosedTypes
