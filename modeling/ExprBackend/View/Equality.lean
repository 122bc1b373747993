import ExprBackend.View.Key

/-! # Equality of values

Numbers are equal if their amounts are; otherwise values of different kinds
differ. Sequences and slices are compared part by part, dictionaries key by key
in any order, functions and objects by identity. A comparison of values that both
contain themselves may come back to the same two values, and then it has no end.
-/

namespace ExprBackend

namespace View

/-- Equality of sequences, item by item. The first items that are not equal decide. -/
def equalItems (inner : Value → Value → Option Bool) (a b : List Value) : Option Bool :=
  if a.length == b.length then (a.zip b).allM fun (x, y) => inner x y else some false

/-- Equality of dictionaries: every key of the first is a key of the second, with an equal value,
and there are no more keys in the second. -/
def equalEntries (key? : Value → Option Text) (inner : Value → Value → Option Bool) (a b : Dict) :
    Option Bool :=
  if a.size == b.size then
    a.entries.allM fun entry =>
      ((key? entry.key).bind b.find?).elim (some false) (inner entry.value)
  else some false

/-- Equality of values, given keys and equality of their contents. -/
def equal (key? : Value → Option Text) (inner : Value → Value → Option Bool) :
    View → View → Option Bool
  | .none, .none => some true
  | .bool a, .bool b => some (a == b)
  | .int a, .int b => some (a == b)
  | .int a, .float b => some (a.toFloat == b)
  | .float a, .int b => some (a == b.toFloat)
  | .float a, .float b => some (a == b)
  | .str a, .str b => some (a == b)
  | .list _ a, .list _ b => equalItems inner a b
  | .tuple a, .tuple b => equalItems inner a b
  | .dict _ a, .dict _ b => equalEntries key? inner a b
  | .slice a b c, .slice a' b' c' => equalItems inner [a, b, c] [a', b', c']
  | .function a _, .function b _ => some (a == b)
  | .object a _, .object b _ => some (a == b)
  | _, _ => some false

end View

/-- Equality of values, if it can be told within a number of levels. -/
def Heap.equalTo (h : Heap) : Nat → Value → Value → Option Bool
  | 0, _, _ => none
  | level + 1, a, b => (h.view a).equal h.key? (h.equalTo level) (h.view b)

/-- A comparison that has gone through so many levels has come back to the same two values. -/
def Heap.pairLevels (h : Heap) : Nat := h.levels * (h.levels + 1)

/-- Equality of values, if their comparison comes to an end. -/
def Heap.equal (h : Heap) (a b : Value) : Option Bool := h.equalTo h.pairLevels a b

end ExprBackend
