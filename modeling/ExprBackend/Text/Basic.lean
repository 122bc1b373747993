/-! # Byte texts

Names, string values, signatures and messages are sequences of bytes. They need
not be well-formed UTF-8, so they are lists of bytes rather than character
strings; a character string stands for its UTF-8 encoding.
-/

namespace ExprBackend

/-- A text is the list of its bytes. -/
abbrev Text := List UInt8

namespace Text

/-- The UTF-8 encoding of a character string. -/
def ofString (s : String) : Text := s.toUTF8.data.toList

instance : Coe String Text := ⟨ofString⟩

def ofChars (cs : List Char) : Text := cs.map fun c => c.toNat.toUInt8

def ofNat (n : Nat) : Text := ofChars (Nat.toDigits 10 n)

def ofInt (i : Int) : Text :=
  if i < 0 then ofString "-" ++ ofNat i.natAbs else ofNat i.natAbs

/-- `True` and `False` in lower case. -/
def ofBool (b : Bool) : Text := if b then "true" else "false"

/-- Repeats one byte in front of a text until it has the given length. -/
def padLeft (width : Nat) (fill : UInt8) (t : Text) : Text :=
  List.replicate (width - t.length) fill ++ t

def padRight (width : Nat) (t : Text) : Text :=
  t ++ List.replicate (width - t.length) 32

/-- A number of at least `width` characters, filled with zeros behind its sign. -/
def zeroPadded (width : Nat) (i : Int) : Text :=
  if i < 0 then ofString "-" ++ padLeft (width - 1) 48 (ofNat i.natAbs)
  else padLeft width 48 (ofNat i.natAbs)

def hex (n : Nat) : Text := ofChars (Nat.toDigits 16 n)

def hexPadded (width n : Nat) : Text := padLeft width 48 (hex n)

def hexBytes (bytes : List UInt8) : Text := bytes.flatMap fun b => hexPadded 2 b.toNat

def join (separator : Text) : List Text → Text
  | [] => []
  | [t] => t
  | t :: rest => t ++ separator ++ join separator rest

/-- What is written for things, with a separator between neighbours, then the rest. -/
def joinThen {α : Type} (separator : Text) (write : α → Text → Text) : List α → Text → Text
  | [], rest => rest
  | [a], rest => write a rest
  | a :: as, rest => write a (separator ++ joinThen separator write as rest)

def startsWith : Text → Text → Bool
  | [], _ => true
  | _ :: _, [] => false
  | a :: start, b :: t => a == b && startsWith start t

/-- Whether the given bytes occur somewhere in a text, next to each other. -/
def occursIn (part : Text) : Text → Bool
  | [] => part.isEmpty
  | b :: rest => startsWith part (b :: rest) || occursIn part rest

end Text

end ExprBackend
