import ClosedTypes.Defect
/-!
Constructors and eliminators are read off their signatures: the owner of a constructor is the head
of its result, the owner of an eliminator the head of its first argument.
-/

namespace ClosedTypes

namespace Constructor

def ofSignature (name : Name) (signature : Ty) : Except Malformed Constructor :=
  match signature.result.head? with
  | some (owner, _) => .ok { name, signature, owner }
  | none => .error ⟨name, .resultNotDeclared signature.result⟩

def fields (d : Constructor) : List Ty := d.signature.doms

def params (d : Constructor) : List Name :=
  match d.signature.result with
  | .const _ args => args.filterMap fun | .var x => some x | _ => none
  | _ => []

end Constructor

namespace Eliminator

/-- An eliminator is a case eliminator when its result is a type variable that the scrutinee's
type does not mention. -/
def ofSignature (name : Name) (signature : Ty) : Except Malformed Eliminator :=
  match signature.doms with
  | [] => .error ⟨name, .noScrutinee⟩
  | scrutinee :: _ =>
    match scrutinee.head? with
    | none => .error ⟨name, .scrutineeNotDeclared scrutinee⟩
    | some (owner, args) =>
      let motive := match signature.result with
        | .var x => if args.any (x ∈ ·.vars) then none else some x
        | _ => none
      .ok { name, signature, owner, motive }

def scrutinee? (d : Eliminator) : Option Ty := d.signature.doms.head?

def rest (d : Eliminator) : List Ty := d.signature.doms.tail

def result (d : Eliminator) : Ty := d.signature.result

def isCaseAnalysis (d : Eliminator) : Bool := d.motive.isSome

def binderTypes (e : Eliminator) (c : Constructor) : List Ty :=
  let args := match e.scrutinee? with
    | some (.const _ args) => args
    | _ => []
  c.fields.map (·.subst (.ofList (c.params.zip args))) ++ e.rest

end Eliminator

end ClosedTypes
