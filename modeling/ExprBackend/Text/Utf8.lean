import ExprBackend.Text.Basic

/-! # Texts as UTF-8

A text splits into pieces: a well-formed encoding of a character is one piece,
and every byte that starts none is a piece of its own. Splitting loses nothing,
and a text of characters only is split into exactly these characters.
-/

namespace ExprBackend.Text

/-- A part of a text that is read at once. -/
inductive Piece where
  /-- The encoding of a character. -/
  | char (c : Char)
  /-- A byte at which no encoding starts. -/
  | stray (b : UInt8)
  deriving DecidableEq

/-- A byte that continues an encoding. -/
def continues (b : UInt8) : Bool := 0x80 ≤ b && b ≤ 0xBF

/-- The second bytes that may follow the first byte of an encoding of three bytes: no encoding is
longer than needed, and none stands for a surrogate. -/
def followsThree (a b : UInt8) : Bool :=
  (0xE0 ≤ a && a ≤ 0xEF) && continues b && (a != 0xE0 || 0xA0 ≤ b) && (a != 0xED || b ≤ 0x9F)

/-- The second bytes that may follow the first byte of an encoding of four bytes: no encoding is
longer than needed, and none stands for more than the last code point. -/
def followsFour (a b : UInt8) : Bool :=
  (0xF0 ≤ a && a ≤ 0xF4) && continues b && (a != 0xF0 || 0x90 ≤ b) && (a != 0xF4 || b ≤ 0x8F)

/-- The character encoded at the start of a text, with the number of bytes after its first. -/
def leading (a : UInt8) (rest : Text) : Option (Char × Nat) :=
  if a < 0x80 then some (Char.ofNat a.toNat, 0)
  else match rest with
    | [] => none
    | b :: rest =>
      if 0xC2 ≤ a && a ≤ 0xDF && continues b then
        some (Char.ofNat (a.toNat % 32 * 64 + b.toNat % 64), 1)
      else match rest with
        | [] => none
        | c :: rest =>
          if followsThree a b && continues c then
            some (Char.ofNat (a.toNat % 16 * 4096 + b.toNat % 64 * 64 + c.toNat % 64), 2)
          else match rest with
            | [] => none
            | d :: _ =>
              if followsFour a b && continues c && continues d then
                some (Char.ofNat (a.toNat % 8 * 262144 + b.toNat % 64 * 4096
                  + c.toNat % 64 * 64 + d.toNat % 64), 3)
              else none

/-- Splits a text into pieces, after bytes that belong to the piece before. -/
def piecesAfter : Nat → Text → List Piece
  | _, [] => []
  | skip + 1, _ :: rest => piecesAfter skip rest
  | 0, a :: rest =>
    match leading a rest with
    | some (c, more) => .char c :: piecesAfter more rest
    | none => .stray a :: piecesAfter 0 rest

/-- The pieces of a text. -/
def pieces (t : Text) : List Piece := piecesAfter 0 t

def encodeChar (c : Char) : Text := String.utf8EncodeChar c

def encode (cs : List Char) : Text := cs.flatMap encodeChar

/-- The character that stands for a byte that is not part of any encoding. -/
def replacement : Char := '�'

def Piece.toChar : Piece → Char
  | .char c => c
  | .stray _ => replacement

/-- The characters of a text, with a replacement character for every stray byte. -/
def chars (t : Text) : List Char := (pieces t).map Piece.toChar

/-- Whether a text is well-formed UTF-8. -/
def isUtf8 (t : Text) : Bool :=
  (pieces t).all fun
    | .char _ => true
    | .stray _ => false

/-- A text as a character string, with a replacement character for every stray byte. -/
def decode (t : Text) : String := String.ofList (chars t)

end ExprBackend.Text
