import ClosedTypes.Term
/-!
Induction over terms, the free variables of lists of them, and the types that are written in them.
-/

namespace ClosedTypes.Term

@[induction_eliminator]
theorem induct {P : Term → Prop} (var : ∀ x, P (.var x)) (app : ∀ f a, P f → P a → P (.app f a))
    (lam : ∀ x dom b, P b → P (.lam x dom b)) (ann : ∀ t ty, P t → P (.ann t ty))
    (ctor : ∀ c args, (∀ t ∈ args, P t) → P (.ctor c args))
    (elim : ∀ e s args, P s → (∀ t ∈ args, P t) → P (.elim e s args)) (lit : ∀ l, P (.lit l))
    (prim : ∀ op args, (∀ t ∈ args, P t) → P (.prim op args))
    (tuple : ∀ elems, (∀ t ∈ elems, P t) → P (.tuple elems))
    (proj : ∀ t i, P t → P (.proj t i)) (t : Term) : P t :=
  Term.rec (motive_1 := P) (motive_2 := fun ts => ∀ t ∈ ts, P t) var app lam ann ctor
    elim lit prim tuple proj nofun
    (fun _ _ h hs => List.forall_mem_cons.2 ⟨h, hs⟩) t

theorem freeAll_eq (ts : List Term) : freeAll ts = ts.flatMap free := by
  induction ts with
  | nil => rfl
  | cons t ts ih => rw [freeAll, ih, List.flatMap_cons]

theorem mem_freeAll {ts : List Term} {x : Name} : x ∈ freeAll ts ↔ ∃ t ∈ ts, x ∈ t.free := by
  rw [freeAll_eq, List.mem_flatMap]

mutual

def annotations : Term → List Ty
  | var _ => []
  | app f a => annotations f ++ annotations a
  | lam _ dom b => dom.toList ++ annotations b
  | ann t ty => annotations t ++ [ty]
  | ctor _ args => annotationsAll args
  | elim _ s args => annotations s ++ annotationsAll args
  | lit _ => []
  | prim _ args => annotationsAll args
  | tuple elems => annotationsAll elems
  | proj t _ => annotations t

def annotationsAll : List Term → List Ty
  | [] => []
  | t :: ts => annotations t ++ annotationsAll ts

end

theorem mem_annotationsAll {ts : List Term} {ty : Ty} :
    ty ∈ annotationsAll ts ↔ ∃ t ∈ ts, ty ∈ t.annotations := by
  induction ts with
  | nil => simp [annotationsAll]
  | cons t ts ih => simp [annotationsAll, ih]

end ClosedTypes.Term
