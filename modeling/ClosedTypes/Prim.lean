/-!
The primitive layer: machine integers, booleans and the operations on them.
-/

namespace ClosedTypes

inductive Prim where
  | int
  | bool
  deriving DecidableEq, Inhabited

inductive Literal where
  | int (n : Int64)
  | bool (b : Bool)
  deriving DecidableEq, Inhabited

namespace Literal

def prim : Literal → Prim
  | int _ => .int
  | bool _ => .bool

def text : Literal → String
  | int n => toString n.toInt
  | bool b => if b then "true" else "false"

end Literal

inductive Operator where
  | add
  | sub
  | mul
  | eq
  | lt
  | and
  | or
  | not
  /-- Lazy in both branches. -/
  | ite
  deriving DecidableEq, Inhabited

namespace Operator

def all : List Operator := [add, sub, mul, eq, lt, and, or, not, ite]

def arity : Operator → Nat
  | not => 1
  | ite => 3
  | _ => 2

def symbol : Operator → String
  | add => "+"
  | sub => "-"
  | mul => "*"
  | eq => "=="
  | lt => "<"
  | and => "and"
  | or => "or"
  | not => "not"
  | ite => "if"

end Operator

end ClosedTypes
