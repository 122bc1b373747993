import ExprBackend.View.Text

/-! # Canonical keys

The canonical key of a value is a text that is the same for values that count as
equal as dictionary keys. Numbers share one spelling if they are equal integers;
lists, dictionaries and slices have none.
-/

namespace ExprBackend

namespace View

/-- The canonical key of a floating point number: that of the integer it equals, if it is a
moderately large one. -/
def floatKey (f : Float) : Text :=
  if Number.isSmallInteger f then "n" ++ Text.ofInt f.toInt64.toInt else "f" ++ Number.floatDigits f

/-- The canonical keys of several values, with a comma after each. The first value that has none
ends the search. -/
def keys? (inner : Value → Option Text) : List Value → Option Text
  | [] => some []
  | item :: rest =>
    match inner item with
    | Option.none => Option.none
    | some key => (keys? inner rest).map fun keys => key ++ "," ++ keys

/-- The canonical key of a value that can be a dictionary key, given the keys of its contents. -/
def key? (inner : Value → Option Text) : View → Option Text
  | .none => some "N"
  | .bool b => some (if b then "b1" else "b0")
  | .int i => some ("n" ++ Text.ofInt i.toInt)
  | .float f => some (floatKey f)
  | .str s => some ("s" ++ Text.quote s)
  | .tuple items => (keys? inner items).map fun keys => "t(" ++ keys ++ ")"
  | .function r _ => some ("p" ++ address r)
  | .object r _ => some ("p" ++ address r)
  | .list _ _ | .dict _ _ | .slice _ _ _ => Option.none

end View

/-- The canonical key of a value, looked at down to a number of levels. -/
def Heap.keyTo? (h : Heap) : Nat → Value → Option Text
  | 0, _ => none
  | level + 1, v => (h.view v).key? (h.keyTo? level)

def Heap.key? (h : Heap) (v : Value) : Option Text := h.keyTo? h.levels v

end ExprBackend
