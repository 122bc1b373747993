import ExprBackend.Text.Basic

/-! # Sets of code points

A set of code points is made of ranges with both ends included, and kept as a
search tree.
-/

namespace ExprBackend.Text

/-- The value of a hexadecimal digit in lower case. -/
def hexDigit? (c : Char) : Option Nat :=
  if c.isDigit then some (c.toNat - '0'.toNat)
  else if 'a' ≤ c ∧ c ≤ 'f' then some (c.toNat - 'a'.toNat + 10)
  else none

/-- A set of code points, as a search tree of ranges with both ends included. -/
inductive Ranges where
  | empty
  /-- A range, with the ranges below it and above it. -/
  | node (below : Ranges) (first last : Nat) (above : Ranges)

namespace Ranges

/-- A tree of at most the given height of the first of some ranges, and the ranges left over. -/
def build : (height : Nat) → List (Nat × Nat) → Ranges × List (Nat × Nat)
  | 0, bounds => (.empty, bounds)
  | height + 1, bounds =>
    match build height bounds with
    | (below, []) => (below, [])
    | (below, (first, last) :: rest) =>
      let (above, rest) := build height rest
      (.node below first last above, rest)

/-- The set of ranges that ascend and do not meet. The height leaves room for all of them. -/
def ofAscending (bounds : List (Nat × Nat)) : Ranges := (build (bounds.length.log2 + 1) bounds).1

/-- Whether a code point lies in one of the ranges. -/
def contains : Ranges → Nat → Bool
  | .empty, _ => false
  | .node below first last above, n =>
    if n < first then below.contains n
    else if last < n then above.contains n
    else true

end Ranges

end ExprBackend.Text
