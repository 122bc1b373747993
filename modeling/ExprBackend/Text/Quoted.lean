import ExprBackend.Text.Classes
import ExprBackend.Text.Utf8

/-! # Quoted text

A quoted text stands between double quotes. Printable characters stand for
themselves, except that a backslash goes before a double quote and before a
backslash. Every other character is escaped by name or by number, and every
byte that belongs to no character by its two hexadecimal digits, so two texts
are equal when their quoted forms are.
-/

namespace ExprBackend.Text

/-- The letter that names a control character after a backslash. -/
def controlLetter? : Nat → Option Char
  | 7 => some 'a'
  | 8 => some 'b'
  | 9 => some 't'
  | 10 => some 'n'
  | 11 => some 'v'
  | 12 => some 'f'
  | 13 => some 'r'
  | _ => none

/-- A character that is not printable, escaped by its name or its number. -/
def escapeChar (c : Char) : Text :=
  match controlLetter? c.toNat with
  | some letter => 92 :: encodeChar letter
  | none =>
    if c.toNat < 32 || c.toNat == 127 then "\\x" ++ hexPadded 2 c.toNat
    else if c.toNat < 65536 then "\\u" ++ hexPadded 4 c.toNat
    else "\\U" ++ hexPadded 8 c.toNat

def quoteChar (c : Char) : Text :=
  if c == '"' || c == '\\' then 92 :: encodeChar c
  else if isPrintable c then encodeChar c
  else escapeChar c

def Piece.quote : Piece → Text
  | .char c => quoteChar c
  | .stray b => "\\x" ++ hexPadded 2 b.toNat

def quote (t : Text) : Text := 34 :: (pieces t).flatMap Piece.quote ++ [34]

end ExprBackend.Text
