import ExprBackend.Number.Real
import ExprBackend.Text.Quoted
import ExprBackend.View.Basic

/-! # Texts of values

The text of a value is what a reader sees. Its signature also tells kinds apart,
and gives the place of everything that has an identity.
-/

namespace ExprBackend

/-- The place of a reference in a signature. -/
def address (r : Ref) : Text := "0x" ++ Text.hex r

namespace View

def boolText (b : Bool) : Text := if b then "True" else "False"

/-- The text of an entry of a dictionary, then the rest. -/
def entryThen (inner : Value → Text → Text) (e : Dict.Entry) (rest : Text) : Text :=
  inner e.key (": " ++ inner e.value rest)

/-- The text of a value, then the rest, given what is written for its contents. A tuple of one item
has a comma of its own. -/
def textThen (inner : Value → Text → Text) : View → Text → Text
  | .none, rest => "None" ++ rest
  | .bool b, rest => boolText b ++ rest
  | .int i, rest => Text.ofInt i.toInt ++ rest
  | .float f, rest => Number.floatText f ++ rest
  | .str s, rest => Text.quote s ++ rest
  | .list _ items, rest => "[" ++ Text.joinThen ", " inner items ("]" ++ rest)
  | .tuple [item], rest => "(" ++ inner item (",)" ++ rest)
  | .tuple items, rest => "(" ++ Text.joinThen ", " inner items (")" ++ rest)
  | .dict _ d, rest => "\x7b" ++ Text.joinThen ", " (entryThen inner) d.entries ("\x7d" ++ rest)
  | .slice start stop step, rest =>
    "slice(" ++ inner start (", " ++ inner stop (", " ++ inner step (")" ++ rest)))
  | .function _ name, rest => "<function " ++ name ++ (">" ++ rest)
  | .object _ name, rest => "<" ++ name ++ (" object>" ++ rest)

/-- The signature of a value, then the rest, given what is written as texts and signatures of its
contents: its kind and text, the place of a reference, and the signatures of the parts of tuples and
slices. -/
def signatureThen (text signature : Value → Text → Text) (v : View) (rest : Text) : Text :=
  match v with
  | .tuple items => "tuple:(" ++ Text.joinThen "," signature items (")" ++ rest)
  | .slice start stop step =>
    "slice:(" ++ signature start ("," ++ signature stop ("," ++ signature step (")" ++ rest)))
  | .list r _ | .dict r _ | .function r _ | .object r _ =>
    v.kind.name ++ "@" ++ address r ++ ":" ++ v.textThen text rest
  | .none | .bool _ | .int _ | .float _ | .str _ => v.kind.name ++ ":" ++ v.textThen text rest

end View

namespace Heap

/-- The text of a value down to a number of levels, then the rest. -/
def textTo (h : Heap) : Nat → Value → Text → Text
  | 0, _, rest => rest
  | level + 1, v, rest => (h.view v).textThen (h.textTo level) rest

def text (h : Heap) (v : Value) : Text := h.textTo h.levels v []

/-- The signature of a value down to a number of levels, then the rest. -/
def signatureTo (h : Heap) : Nat → Value → Text → Text
  | 0, _, rest => rest
  | level + 1, v, rest => (h.view v).signatureThen (h.textTo level) (h.signatureTo level) rest

def signature (h : Heap) (v : Value) : Text := h.signatureTo h.levels v []

end Heap

end ExprBackend
