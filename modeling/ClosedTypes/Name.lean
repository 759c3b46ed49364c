/-!
Names and their fresh variants. The variants of `x` are `x'1`, `x'2`, …, and a variant has the
variants of its stem, so that freshening twice does not pile up suffixes.
-/

namespace ClosedTypes

abbrev Name := String

namespace Name

def stem (x : Name) : Name :=
  let back := x.toList.reverse
  match back.dropWhile Char.isDigit with
  | '\x27' :: c :: rest =>
    if back.head?.any Char.isDigit then String.ofList (c :: rest).reverse else x
  | _ => x

def variant (x : Name) (i : Nat) : Name := x.stem ++ "'" ++ toString i

/-- The first variant that is not taken. Of the first `taken.length + 1` variants at most
`taken.length` are taken, so the search over the others has an answer or leaves the last one. -/
def freshVariant (x : Name) (taken : List Name) : Name :=
  x.variant
    (((List.range taken.length).find? fun i => x.variant (i + 1) ∉ taken).getD taken.length + 1)

end Name

end ClosedTypes
