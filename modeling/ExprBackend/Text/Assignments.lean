import ExprBackend.Text.Ranges

/-! # Code points assigned to code points

A table assigns a list of numbers to single code points or to ranges. It is
written as hexadecimal numbers, `a8:20,308 300-314:e6`, with blanks between the
entries. The place of an entry is left out, as in `c0:41,300 41,301`, if it is
the code point behind the entry before. After a sign characters stand for their
own numbers: `132=IJ` is one entry, and `2090*aeox`, `132+IJij` and `2105&c/oc/u`
are entries of one, two and three characters each for code points in turn.
-/

namespace ExprBackend.Text

/-- A hexadecimal number; characters that are no digits are passed over. -/
def hexNumber (cs : List Char) : Nat :=
  cs.foldl (fun n c => match hexDigit? c with
    | some d => 16 * n + d
    | none => n) 0

/-- The words of a character list, with blanks and line ends between them. -/
def words (cs : List Char) : List (List Char) :=
  let (last, before) := cs.foldl (fun (word, found) c =>
    if c == ' ' || c == '\n' then ([], if word.isEmpty then found else word.reverse :: found)
    else (c :: word, found)) (([] : List Char), ([] : List (List Char)))
  ((if last.isEmpty then before else last.reverse :: before)).reverse

structure Assignment where
  first : Nat
  last : Nat
  targets : List Nat

structure Assignments where
  entries : List Assignment

namespace Assignments

def parseRange (word : List Char) : Nat × Nat :=
  let first := word.takeWhile (· != '-')
  match word.dropWhile (· != '-') with
  | [] => (hexNumber first, hexNumber first)
  | _ :: last => (hexNumber first, hexNumber last)

def splitAtCommas (cs : List Char) : List (List Char) :=
  let (last, before) := cs.foldl (fun (part, found) c =>
    if c == ',' then ([], part.reverse :: found) else (c :: part, found))
    (([] : List Char), ([] : List (List Char)))
  (last.reverse :: before).reverse

/-- Entries of as many characters each, for code points in turn. -/
def inTurn (first size : Nat) (targets : List Char) : List Assignment :=
  (List.range (targets.length / size)).map fun i =>
    ⟨first + i, first + i, ((targets.drop (size * i)).take size).map (·.toNat)⟩

/-- Reads the entries of one word. Without a place of their own they are for the next code points.
-/
def parseWord (next : Nat) (word : List Char) : List Assignment :=
  let isSign := fun c => c == ':' || c == '=' || c == '*' || c == '+' || c == '&'
  let place := word.takeWhile (!isSign ·)
  let (first, last) := if place.isEmpty then (next, next) else parseRange place
  match word.dropWhile (!isSign ·) with
  | '=' :: targets => [⟨first, last, targets.map (·.toNat)⟩]
  | '*' :: targets => inTurn first 1 targets
  | '+' :: targets => inTurn first 2 targets
  | '&' :: targets => inTurn first 3 targets
  | _ :: targets => [⟨first, last, (splitAtCommas targets).map hexNumber⟩]
  | [] => [⟨next, next, (splitAtCommas word).map hexNumber⟩]

def parseEntries : (next : Nat) → List (List Char) → List Assignment
  | _, [] => []
  | next, word :: rest =>
    let found := parseWord next word
    found ++ parseEntries ((found.getLast?.map (·.last + 1)).getD next) rest

def parse (s : String) : Assignments := ⟨parseEntries 0 (words s.toList)⟩

def find? (a : Assignments) (n : Nat) : Option Assignment :=
  a.entries.find? fun e => e.first ≤ n && n ≤ e.last

end Assignments

end ExprBackend.Text
