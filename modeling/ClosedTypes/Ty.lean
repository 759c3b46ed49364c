import ClosedTypes.Name
import ClosedTypes.Index
import ClosedTypes.Prim
/-!
Types. A variable is rigid and belongs to a signature; a metavariable stands for a type that the
checker has yet to find.
-/

namespace ClosedTypes

inductive Ty where
  | var (x : Name)
  | metavar (id : UInt32)
  /-- A declared type applied to its parameters. -/
  | const (name : Name) (args : List Ty)
  | arrow (dom cod : Ty)
  | prim (p : Prim)
  | tuple (elems : List Ty)
  deriving Inhabited

namespace Ty

mutual

def same : Ty → Ty → Bool
  | var x, var y => x = y
  | metavar i, metavar j => i = j
  | const c as, const d bs => c = d && sameAll as bs
  | arrow a b, arrow c d => same a c && same b d
  | prim p, prim q => p = q
  | tuple as, tuple bs => sameAll as bs
  | _, _ => false

def sameAll : List Ty → List Ty → Bool
  | [], [] => true
  | a :: as, b :: bs => same a b && sameAll as bs
  | _, _ => false

end

mutual

theorem same_iff : (a b : Ty) → (same a b = true ↔ a = b)
  | var _, b => by cases b <;> simp [same]
  | metavar _, b => by cases b <;> simp [same]
  | prim _, b => by cases b <;> simp [same]
  | const _ as, b => by
    cases b with
    | const _ bs => simp [same, sameAll_iff as bs]
    | _ => simp [same]
  | arrow a b, c => by
    cases c with
    | arrow c d => simp [same, same_iff a c, same_iff b d]
    | _ => simp [same]
  | tuple as, b => by
    cases b with
    | tuple bs => simp [same, sameAll_iff as bs]
    | _ => simp [same]

theorem sameAll_iff : (as bs : List Ty) → (sameAll as bs = true ↔ as = bs)
  | [], bs => by cases bs <;> simp [sameAll]
  | a :: as, bs => by
    cases bs with
    | nil => simp [sameAll]
    | cons b bs => simp [sameAll, same_iff a b, sameAll_iff as bs]

end

instance : DecidableEq Ty := fun a b => decidable_of_iff _ (same_iff a b)

def arrows (doms : List Ty) (cod : Ty) : Ty := doms.foldr arrow cod

def telescope : Ty → List Ty × Ty
  | arrow d c => (d :: (telescope c).1, (telescope c).2)
  | t => ([], t)

def doms (t : Ty) : List Ty := t.telescope.1

def result (t : Ty) : Ty := t.telescope.2

def head? : Ty → Option (Name × List Ty)
  | const c args => some (c, args)
  | _ => none

mutual

def any (p : Ty → Bool) : Ty → Bool
  | var x => p (var x)
  | metavar i => p (metavar i)
  | prim q => p (prim q)
  | const c args => p (const c args) || anyAll p args
  | arrow d c => p (arrow d c) || any p d || any p c
  | tuple elems => p (tuple elems) || anyAll p elems

def anyAll (p : Ty → Bool) : List Ty → Bool
  | [] => false
  | t :: ts => any p t || anyAll p ts

end

def hasMetavars (t : Ty) : Bool := t.any fun | metavar _ => true | _ => false

def mentionsMetavar (t : Ty) (i : UInt32) : Bool := t.any fun | metavar j => j = i | _ => false

def mentions (t : Ty) (c : Name) : Bool := t.any fun | const d _ => d = c | _ => false

mutual

def replace (f : Ty → Option Ty) : Ty → Ty
  | var x => (f (var x)).getD (var x)
  | metavar i => (f (metavar i)).getD (metavar i)
  | prim p => (f (prim p)).getD (prim p)
  | const c args => (f (const c args)).getD (const c (replaceAll f args))
  | arrow d c => (f (arrow d c)).getD (arrow (replace f d) (replace f c))
  | tuple elems => (f (tuple elems)).getD (tuple (replaceAll f elems))

def replaceAll (f : Ty → Option Ty) : List Ty → List Ty
  | [] => []
  | t :: ts => replace f t :: replaceAll f ts

end

def subst (t : Ty) (m : Index Name Ty) : Ty :=
  t.replace fun | var x => m.find? x | _ => none

def substMetavars (t : Ty) (m : UInt32 → Option Ty) : Ty :=
  t.replace fun | metavar i => m i | _ => none

/-- Every use of the declared type `c`, whatever its arguments, becomes the backing type. -/
def substConst (t : Ty) (c : Name) (backing : Ty) : Ty :=
  t.replace fun | const d _ => if d = c then some backing else none | _ => none

mutual

def varOccurrences : Ty → List Name
  | var x => [x]
  | metavar _ => []
  | prim _ => []
  | const _ args => varOccurrencesAll args
  | arrow d c => varOccurrences d ++ varOccurrences c
  | tuple elems => varOccurrencesAll elems

def varOccurrencesAll : List Ty → List Name
  | [] => []
  | t :: ts => varOccurrences t ++ varOccurrencesAll ts

end

def vars (t : Ty) : List Name := t.varOccurrences.eraseDups

end Ty

end ClosedTypes
