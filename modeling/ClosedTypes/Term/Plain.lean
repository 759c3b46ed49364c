import ClosedTypes.Term
/-!
Plain terms, in which no rule of a context applies, and the linear ones among them: a variable with
literals added to it and subtracted from it.
-/

namespace ClosedTypes

namespace Term

inductive Plain : Term → Prop where
  | var {x : Name} : Plain (.var x)
  | lit {l : Literal} : Plain (.lit l)
  | prim {op : Operator} {args : List Term} : (∀ a ∈ args, Plain a) → Plain (.prim op args)
  | tuple {elems : List Term} : (∀ a ∈ elems, Plain a) → Plain (.tuple elems)
  | proj {t : Term} {i : UInt64} : Plain t → Plain (.proj t i)

def shifted (x : Name) (c : Int64) : Term := if c = 0 then var x else prim .add [var x, int c]

end Term

/-- Sums and differences with literals, around a variable. -/
inductive Linear where
  | self
  /-- `e + k` -/
  | plus (e : Linear) (k : Int64)
  /-- `k + e` -/
  | onto (k : Int64) (e : Linear)
  /-- `e - k` -/
  | minus (e : Linear) (k : Int64)

namespace Linear

open Term

def term (x : Name) : Linear → Term
  | self => var x
  | plus e k => prim .add [e.term x, int k]
  | onto k e => prim .add [int k, e.term x]
  | minus e k => prim .sub [e.term x, int k]

def offset : Linear → Int
  | self => 0
  | plus e k => e.offset + k.toInt
  | onto k e => k.toInt + e.offset
  | minus e k => e.offset - k.toInt

end Linear

end ClosedTypes
