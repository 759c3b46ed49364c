import ClosedTypes.Declaration
import ClosedTypes.Term.Text
/-!
What can be wrong with a declaration taken by itself.
-/

namespace ClosedTypes

inductive Defect where
  | resultNotDeclared (result : Ty)
  | noScrutinee
  | scrutineeNotDeclared (scrutinee : Ty)
  | wrongKind (found wanted : EntryKind)
  | otherType (owner : Name) (found : Ty)
  | parametersNotVariables (found : Ty) (owner : Name)
  | strayFieldVariable (field : Ty) (x owner : Name)
  | misplacedMotive (motive owner : Name)
  | branchShape (index : Nat) (constructor : Name) (expected found : Ty)
  | foreignConstructor (constructor owner : Name)
  | repeatedBinder (constructor x : Name)
  | notAnOperation (found : Option EntryKind)
  | ownerNotRepresented (owner : Name)
  | notRepresented

def EntryKind.withArticle : EntryKind → String
  | eliminator => "an " ++ eliminator.text
  | k => "a " ++ k.text

def Defect.message : Defect → String
  | resultNotDeclared result => "constructor result " ++ result.text ++ " is not a declared type"
  | noScrutinee => "eliminator takes no scrutinee"
  | scrutineeNotDeclared scrutinee => "scrutinee " ++ scrutinee.text ++ " is not a declared type"
  | wrongKind found wanted => "is a " ++ found.text ++ ", not " ++ wanted.withArticle
  | otherType owner found => "expected " ++ owner ++ ", found " ++ found.text
  | parametersNotVariables found owner =>
    found.text ++ " must apply " ++ owner ++ " to distinct type variables"
  | strayFieldVariable field x owner =>
    "field " ++ field.text ++ " mentions " ++ x ++ ", which is not a parameter of " ++ owner
  | misplacedMotive motive owner =>
    "motive " ++ motive ++ " must be the result and not a parameter of " ++ owner
  | branchShape index constructor expected found =>
    "branch " ++ toString index ++ " for " ++ constructor ++ " should be " ++ expected.text ++
      ", found " ++ found.text
  | foreignConstructor constructor owner => constructor ++ " is not a constructor of " ++ owner
  | repeatedBinder constructor x => "equation for " ++ constructor ++ " binds " ++ x ++ " twice"
  | notAnOperation none => "only constructors and eliminators can be implemented"
  | notAnOperation (some found) =>
    "only constructors and eliminators can be implemented, not a " ++ found.text
  | ownerNotRepresented owner => owner ++ " has no representation"
  | notRepresented => "has no representation"

structure Malformed where
  name : Name
  defect : Defect

def Malformed.message (m : Malformed) : String :=
  "malformed declaration " ++ m.name ++ ": " ++ m.defect.message

end ClosedTypes
