import ExprBackend.Error
import ExprBackend.View.Equality

/-! # Order of values

Numbers are ordered by amount, texts byte by byte, truth values with false
first, and sequences of one kind by their first items that differ. No other
values are ordered. Like equality, the order of values that both contain themselves
may be looked for without end.
-/

namespace ExprBackend

namespace View

/-- The order of floating point numbers. A number that is none is on a level with every other. -/
def orderReal (a b : Float) : Ordering := if a < b then .lt else if b < a then .gt else .eq

/-- The failure to order two values. -/
def unordered (a b : View) : RuntimeError := .operands "<" [a.kind, b.kind]

/-- The order of sequences: that of the first items that differ, or else of the lengths. -/
def orderItems (equal : Value → Value → Option Bool)
    (inner : Value → Value → Option (Except RuntimeError Ordering)) :
    List Value → List Value → Option (Except RuntimeError Ordering)
  | [], [] => some (.ok .eq)
  | [], _ :: _ => some (.ok .lt)
  | _ :: _, [] => some (.ok .gt)
  | a :: as, b :: bs =>
    match equal a b with
    | some true => orderItems equal inner as bs
    | some false => inner a b
    | Option.none => Option.none

/-- The order of two values, given equality and order of their contents. -/
def order (equal : Value → Value → Option Bool)
    (inner : Value → Value → Option (Except RuntimeError Ordering)) :
    View → View → Option (Except RuntimeError Ordering)
  | .int a, .int b => some (.ok (compare a b))
  | .int a, .float b => some (.ok (orderReal a.toFloat b))
  | .float a, .int b => some (.ok (orderReal a b.toFloat))
  | .float a, .float b => some (.ok (orderReal a b))
  | .str a, .str b => some (.ok (compare a b))
  | .bool a, .bool b => some (.ok (compare a b))
  | .list _ a, .list _ b => orderItems equal inner a b
  | .tuple a, .tuple b => orderItems equal inner a b
  | a, b => some (.error (unordered a b))

end View

/-- The order of two values, if it can be told within a number of levels. -/
def Heap.orderTo (h : Heap) : Nat → Value → Value → Option (Except RuntimeError Ordering)
  | 0, _, _ => none
  | level + 1, a, b => (h.view a).order h.equal (h.orderTo level) (h.view b)

/-- The order of two values, if their comparison comes to an end. -/
def Heap.order (h : Heap) (a b : Value) : Option (Except RuntimeError Ordering) :=
  h.orderTo h.pairLevels a b

end ExprBackend
