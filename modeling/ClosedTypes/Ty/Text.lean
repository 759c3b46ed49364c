import ClosedTypes.Ty
/-!
How types are written: `List a -> (a -> b) -> #Int`.
-/

namespace ClosedTypes.Ty

def standsAlone : Ty → Bool
  | const _ args => args.isEmpty
  | arrow _ _ => false
  | _ => true

def isArrow : Ty → Bool
  | arrow _ _ => true
  | _ => false

mutual

def text : Ty → String
  | var x => x
  | metavar i => "?" ++ toString i.toNat
  | prim .int => "#Int"
  | prim .bool => "#Bool"
  | const c args => c ++ argTexts args
  | arrow d c => (if d.isArrow then "(" ++ text d ++ ")" else text d) ++ " -> " ++ text c
  | tuple elems => "(" ++ ", ".intercalate (texts elems) ++ ")"

def argTexts : List Ty → String
  | [] => ""
  | a :: as => (if a.standsAlone then " " ++ text a else " (" ++ text a ++ ")") ++ argTexts as

def texts : List Ty → List String
  | [] => []
  | t :: ts => text t :: texts ts

end

end ClosedTypes.Ty
