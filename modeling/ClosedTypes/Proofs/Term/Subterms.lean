import ClosedTypes.Proofs.Term.Free
/-!
The subterms of a term, itself among them.
-/

namespace ClosedTypes.Term

mutual

def subterms : Term → List Term
  | var x => [var x]
  | app f a => app f a :: (subterms f ++ subterms a)
  | lam x dom b => lam x dom b :: subterms b
  | ann t ty => ann t ty :: subterms t
  | ctor c args => ctor c args :: subtermsAll args
  | elim e s args => elim e s args :: (subterms s ++ subtermsAll args)
  | lit l => [lit l]
  | prim op args => prim op args :: subtermsAll args
  | tuple elems => tuple elems :: subtermsAll elems
  | proj t i => proj t i :: subterms t

def subtermsAll : List Term → List Term
  | [] => []
  | t :: ts => subterms t ++ subtermsAll ts

end

def domain? : Term → Option Ty
  | lam _ dom _ => dom
  | _ => none

def domains (t : Term) : List Ty := t.subterms.filterMap domain?

def isProj : Term → Bool
  | proj _ _ => true
  | _ => false

def hasProjection (t : Term) : Bool := t.subterms.any isProj

variable {p : Term → Prop} {t s : Term} {ts : List Term}

theorem forall_mem_subtermsAll : (∀ s ∈ subtermsAll ts, p s) ↔ ∀ t ∈ ts, ∀ s ∈ t.subterms, p s := by
  induction ts with
  | nil => simp [subtermsAll]
  | cons t ts ih => rw [subtermsAll, List.forall_mem_append, ih, List.forall_mem_cons]

theorem mem_subterms_self (t : Term) : t ∈ t.subterms := by cases t <;> exact List.mem_cons_self

theorem forall_mem_domains {q : Ty → Prop} :
    (∀ w ∈ t.domains, q w) ↔ ∀ s ∈ t.subterms, ∀ w, s.domain? = some w → q w := by
  simp only [domains, List.mem_filterMap]
  exact ⟨fun h s hs w hw => h w ⟨s, hs, hw⟩, fun h w ⟨s, hs, hw⟩ => h s hs w hw⟩

theorem hasProjection_eq_false_iff :
    t.hasProjection = false ↔ ∀ s ∈ t.subterms, s.isProj = false := by
  simp [hasProjection]

end ClosedTypes.Term
