import ClosedTypes.Term
/-!
Simultaneous capture-avoiding substitution. A binder that would capture a free variable of a
replacement is renamed to a fresh variant first, by a substitution of its own; renaming keeps the
size, which is why the recursion ends.
-/

namespace ClosedTypes

namespace Term

def Renames (m : Index Name Term) : Prop := ∀ x u, m.find? x = some u → u.size = 1

theorem Renames.erase {m : Index Name Term} (h : Renames m) (x : Name) : Renames (m.erase x) :=
  fun y u hu => h y u (Index.find?_of_find?_erase hu)

theorem renames_var (x y : Name) : Renames (Index.ofList [(x, var y)]) := by
  intro z u h
  simp only [Index.ofList, List.foldl_cons, List.foldl_nil, Index.find?_insert, Index.find?_empty]
    at h
  split at h <;> cases h
  rfl

mutual

/-- The substitution `m` in a term, with binders in `avoid` renamed where `m` still has work to
do below them. -/
def substAvoiding (avoid : List Name) (m : Index Name Term) :
    (t : Term) → { u : Term // Renames m → u.size = t.size }
  | var x =>
    match h : m.find? x with
    | some u => ⟨u, fun r => r x u h⟩
    | none => ⟨var x, fun _ => rfl⟩
  | lit l => ⟨lit l, fun _ => rfl⟩
  | lam x dom body =>
    let inner := m.erase x
    if inner.keys.any (· ∈ body.free) then
      if x ∈ avoid then
        let fresh := x.freshVariant (avoid ++ body.free ++ inner.keys)
        match substAvoiding [fresh] (Index.ofList [(x, var fresh)]) body with
        | ⟨renamed, keeps⟩ =>
          have := keeps (renames_var x fresh)
          let body' := substAvoiding avoid inner renamed
          ⟨lam fresh dom body'.1, fun r => by simp only [size]; rw [body'.2 (r.erase x), this]⟩
      else
        let body' := substAvoiding avoid inner body
        ⟨lam x dom body'.1, fun r => by simp only [size]; rw [body'.2 (r.erase x)]⟩
    else ⟨lam x dom body, fun _ => rfl⟩
  | app f a =>
    let f' := substAvoiding avoid m f
    let a' := substAvoiding avoid m a
    ⟨app f'.1 a'.1, fun r => by simp only [size]; rw [f'.2 r, a'.2 r]⟩
  | ann t ty =>
    let t' := substAvoiding avoid m t
    ⟨ann t'.1 ty, fun r => by simp only [size]; rw [t'.2 r]⟩
  | ctor c args =>
    let args' := substAllAvoiding avoid m args
    ⟨ctor c args'.1, fun r => by simp only [size]; rw [args'.2 r]⟩
  | elim e s args =>
    let s' := substAvoiding avoid m s
    let args' := substAllAvoiding avoid m args
    ⟨elim e s'.1 args'.1, fun r => by simp only [size]; rw [s'.2 r, args'.2 r]⟩
  | prim op args =>
    let args' := substAllAvoiding avoid m args
    ⟨prim op args'.1, fun r => by simp only [size]; rw [args'.2 r]⟩
  | tuple elems =>
    let elems' := substAllAvoiding avoid m elems
    ⟨tuple elems'.1, fun r => by simp only [size]; rw [elems'.2 r]⟩
  | proj t i =>
    let t' := substAvoiding avoid m t
    ⟨proj t'.1 i, fun r => by simp only [size]; rw [t'.2 r]⟩
termination_by t => t.size
decreasing_by all_goals (simp only [size]; omega)

def substAllAvoiding (avoid : List Name) (m : Index Name Term) :
    (ts : List Term) → { us : List Term // Renames m → sizeAll us = sizeAll ts }
  | [] => ⟨[], fun _ => rfl⟩
  | t :: ts =>
    let t' := substAvoiding avoid m t
    let ts' := substAllAvoiding avoid m ts
    ⟨t'.1 :: ts'.1, fun r => by simp only [sizeAll]; rw [t'.2 r, ts'.2 r]⟩
termination_by ts => sizeAll ts
decreasing_by all_goals (simp only [sizeAll]; omega)

end

/-- Every free occurrence of a key of `m` is replaced at once, so that nothing is replaced inside
a replacement. -/
def subst (t : Term) (m : Index Name Term) : Term := (substAvoiding (m.values.flatMap free) m t).1

def instantiate (t : Term) (x : Name) (r : Term) : Term := t.subst (.ofList [(x, r)])

end Term

end ClosedTypes
