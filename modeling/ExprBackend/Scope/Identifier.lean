import ExprBackend.Error
import ExprBackend.Text.NormalForm

/-! # Identifiers

Names are compared in their compatibility normal form. The normal form of a name
has to match a pattern: a letter or underscore, then letters, digits, marks and
underscores up to the end of the text. The end of a text is also found before a
line end that ends it, so one line end behind an identifier is let pass, and makes
it another name.
-/

namespace ExprBackend

/-- How names are brought into a normal form, and which normal forms can be bound. -/
structure Naming where
  normalForm : Text → Text
  valid : Text → Bool

def Naming.normalize (naming : Naming) (name : Text) : Except Error Text :=
  let normal := naming.normalForm name
  if naming.valid normal then .ok normal else .error (.bind name .notIdentifier)

inductive Pattern.Item where
  /-- The start of the text. -/
  | start
  /-- A character of a kind. -/
  | one (kind : Char → Bool)
  /-- Any number of characters of a kind. -/
  | many (kind : Char → Bool)
  /-- The end of the text, or the place before a line end that ends it. -/
  | finish

/-- What has to be found in a text one after the other. -/
abbrev Pattern := List Pattern.Item

namespace Pattern

/-- Whether a pattern matches characters from their first on, which may be the first of the text.
Repetitions take as many characters as they can before they try less. -/
def matchesFrom : Pattern → (atStart : Bool) → List Char → Bool
  | [], _, _ => true
  | .start :: rest, atStart, cs => atStart && matchesFrom rest atStart cs
  | .one _ :: _, _, [] => false
  | .one p :: rest, _, c :: cs => p c && matchesFrom rest false cs
  | .many p :: rest, atStart, cs =>
    (List.range ((cs.takeWhile p).length + 1)).reverse.any fun count =>
      matchesFrom rest (atStart && count == 0) (cs.drop count)
  | .finish :: rest, atStart, cs => (cs == [] || cs == ['\n']) && matchesFrom rest atStart cs

/-- Whether a pattern matches somewhere in a text. -/
def search (p : Pattern) (cs : List Char) : Bool :=
  (List.range (cs.length + 1)).any fun place => p.matchesFrom (place == 0) (cs.drop place)

end Pattern

namespace Identifier

/-- The pattern of identifiers, given which characters are letters and which may follow besides. -/
def pattern (letter extender : Char → Bool) : Pattern :=
  [.start, .one fun c => c == '_' || letter c, .many fun c => letter c || extender c, .finish]

/-- Names are brought into a normal form, in which the pattern of identifiers is searched. -/
def namingBy (normalForm : Text → Text) (search : Pattern → List Char → Bool)
    (letter extender : Char → Bool) : Naming where
  normalForm := normalForm
  valid t := search (pattern letter extender) (Text.chars t)

/-- Names are identifiers in compatibility normal form. -/
def naming : Naming :=
  namingBy Text.normalForm Pattern.search (Text.letters.contains ·.toNat)
    (Text.extenders.contains ·.toNat)

end Identifier

end ExprBackend
