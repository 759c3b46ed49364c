import ClosedTypes.Term
import ClosedTypes.Ty.Text
/-!
How terms are written: `\x. Succ (f x)`, `(a + b)`, `if c then t else e`.
-/

namespace ClosedTypes.Term

def standsAlone : Term → Bool
  | var _ | lit _ | tuple _ | proj _ _ | ann _ _ => true
  | ctor _ args => args.isEmpty
  | prim op _ => op ≠ .not && op ≠ .ite
  | _ => false

def isApp : Term → Bool
  | app _ _ => true
  | _ => false

def wrap (t : Term) (s : String) : String := if t.standsAlone then s else "(" ++ s ++ ")"

def spaced (args : List Term) (texts : List String) : String :=
  String.join ((args.zipWith wrap texts).map (" " ++ ·))

def primText (op : Operator) (args : List Term) (texts : List String) : String :=
  match op, texts, args.zipWith wrap texts with
  | .ite, [c, t, e], _ => "if " ++ c ++ " then " ++ t ++ " else " ++ e
  | op, _, [a, b] =>
    if op.arity = 2 then
      "(" ++ a ++ " " ++ op.symbol ++ " " ++ b ++ ")"
    else
      op.symbol ++ spaced args texts
  | op, _, _ => op.symbol ++ spaced args texts

mutual

def text : Term → String
  | var x => x
  | lit l => l.text
  | app f a => (if f.isApp then text f else wrap f (text f)) ++ " " ++ wrap a (text a)
  | lam x none b => "\\" ++ x ++ ". " ++ text b
  | lam x (some d) b => "\\(" ++ x ++ " : " ++ d.text ++ "). " ++ text b
  | ann t ty => "(" ++ text t ++ " : " ++ ty.text ++ ")"
  | ctor c args => c ++ spaced args (texts args)
  | elim e s args => e ++ " " ++ wrap s (text s) ++ spaced args (texts args)
  | prim op args => primText op args (texts args)
  | tuple elems => "(" ++ ", ".intercalate (texts elems) ++ ")"
  | proj t i => wrap t (text t) ++ "." ++ toString i.toNat

def texts : List Term → List String
  | [] => []
  | t :: ts => text t :: texts ts

end

end ClosedTypes.Term
