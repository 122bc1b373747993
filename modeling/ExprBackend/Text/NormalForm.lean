import ExprBackend.Text.CombiningClass
import ExprBackend.Text.Composition
import ExprBackend.Text.Decomposition
import ExprBackend.Text.Utf8

/-! # The compatibility normal form

Texts that differ only in how their characters are encoded have the same normal
form. It is found by decomposing all characters, putting combining marks into
the order of their classes, and composing again what can be composed. More than
thirty marks in a row are broken up by a grapheme joiner, so that a text can be
processed piece by piece.
-/

namespace ExprBackend.Text

namespace Hangul

/-- The first syllable. -/
def base : Nat := 0xAC00

def leadBase : Nat := 0x1100

def vowelBase : Nat := 0x1161

/-- The place before the first trailing consonant. -/
def tailBase : Nat := 0x11A7

def leadCount : Nat := 19

def vowelCount : Nat := 21

/-- The number of trailing consonants, and of their absence. -/
def tailCount : Nat := 28

def isSyllable (c : Nat) : Bool := base ≤ c && c < base + leadCount * vowelCount * tailCount

def decompose (c : Nat) : List Nat :=
  let i := c - base
  let lead := leadBase + i / (vowelCount * tailCount)
  let vowel := vowelBase + i / tailCount % vowelCount
  if i % tailCount == 0 then [lead, vowel] else [lead, vowel, tailBase + i % tailCount]

def compose? (a b : Nat) : Option Nat :=
  if leadBase ≤ a && a < leadBase + leadCount && vowelBase ≤ b && b < vowelBase + vowelCount then
    some (base + ((a - leadBase) * vowelCount + (b - vowelBase)) * tailCount)
  else if isSyllable a && (a - base) % tailCount == 0 && tailBase < b
      && b < tailBase + tailCount then
    some (a + (b - tailBase))
  else none

def isVowelOrTail (c : Nat) : Bool :=
  (vowelBase ≤ c && c < vowelBase + vowelCount) || (tailBase < c && c < tailBase + tailCount)

end Hangul

/-- The decomposition of a code point. What it is made of is decomposed in turn, on so many levels
at most. -/
def decomposeWithin : (levels : Nat) → Nat → List Nat
  | 0, c => [c]
  | levels + 1, c =>
    if c < 0xA0 then [c]
    else if Hangul.isSyllable c then Hangul.decompose c
    else
      match compositions.find? c, decompositions.find? c with
      | some entry, _ => entry.targets.flatMap (decomposeWithin levels)
      | none, some ⟨first, _, [target]⟩ => decomposeWithin levels (target + (c - first))
      | none, some entry => entry.targets.flatMap (decomposeWithin levels)
      | none, none => [c]

/-- The full compatibility decomposition of a code point. -/
def decomposition (c : Nat) : List Nat := decomposeWithin 4 c

/-- The code point that two others compose to, which are told by their lowest sixteen bits. -/
def composition? (a b : Nat) : Option Nat :=
  let pair := [a % 65536, b % 65536]
  (compositions.entries.find? fun e => e.targets.map (· % 65536) == pair).map (·.first)

/-- Whether a code point can be the second of two that compose. -/
def combinesBackward (c : Nat) : Bool :=
  Hangul.isVowelOrTail c || compositions.entries.any fun e => e.targets[1]? == some c

/-- Whether a code point goes with what is before it. -/
def isFollower (c : Nat) : Bool := 0xA0 ≤ c && (combiningClass c != 0 || combinesBackward c)

def leadingMarks (c : Nat) : Nat := ((decomposition c).takeWhile isFollower).length

def trailingMarks (c : Nat) : Nat := ((decomposition c).reverse.takeWhile isFollower).length

/-- The character that joins nothing and keeps marks apart. -/
def graphemeJoiner : Nat := 0x34F

/-- Cuts code points into runs. A run starts at a character that does not go with what is before
it, or at the mark that would be the thirty-first in a row; a grapheme joiner closes the run before
that mark. -/
def runs : (marks : Nat) → (run : List Nat) → List Nat → List (List Nat)
  | _, run, [] => [run.reverse]
  | marks, run, c :: rest =>
    let leading := leadingMarks c
    if leading == 0 then run.reverse :: runs (trailingMarks c) [c] rest
    else if 30 < marks + leading then
      run.reverse :: [graphemeJoiner] :: runs leading [c] rest
    else runs (marks + leading) (c :: run) rest

/-- Cuts decomposed code points before each that does not go with what is before it. -/
def segments : (segment : List Nat) → List Nat → List (List Nat)
  | segment, [] => [segment.reverse]
  | segment, c :: rest =>
    if isFollower c then segments (c :: segment) rest
    else segment.reverse :: segments [c] rest

structure Ranked where
  code : Nat
  rank : Nat

/-- Puts a mark behind all marks before it that do not have a higher class. The list is reversed:
its first element is the last character so far. -/
def insertMark (c : Ranked) : List Ranked → List Ranked
  | [] => [c]
  | last :: rest => if c.rank < last.rank then last :: insertMark c rest else c :: last :: rest

/-- The code points of a segment with their classes, the marks in order of their classes;
reversed. -/
def orderMarks (segment : List Nat) : List Ranked :=
  segment.foldl (fun done code =>
    let c : Ranked := ⟨code, combiningClass code⟩
    if c.rank == 0 then c :: done else insertMark c done) []

structure Composing where
  /-- What comes before the base, reversed. -/
  finished : List Ranked
  base : Ranked
  /-- What came after the base and was not composed with it, reversed. -/
  kept : List Ranked
  /-- Whether a vowel or trailing consonant was met, after which only syllables are composed. -/
  syllables : Bool

namespace Composing

def result (s : Composing) : List Nat := ((s.kept ++ s.base :: s.finished).map (·.code)).reverse

def lastRank (s : Composing) : Nat := (s.kept.head?.getD s.base).rank

/-- Makes the last character the base, if its class is zero. -/
def rebase (s : Composing) : Composing :=
  match s.kept with
  | [] => s
  | last :: rest =>
    if last.rank == 0 then
      { s with finished := rest ++ s.base :: s.finished, base := last, kept := [] }
    else s

/-- Whether what was kept after the base keeps a character away from it. -/
def blocks (s : Composing) (c : Ranked) : Bool := !s.kept.isEmpty && c.rank ≤ s.lastRank

def keep (s : Composing) (c : Ranked) : Composing := { s with kept := c :: s.kept }

/-- Composes a character with the base if the rule allows it and nothing is in between. -/
def join (rule : Nat → Nat → Option Nat) (s : Composing) (c : Ranked) : Composing :=
  let s := s.rebase
  if s.blocks c then s.keep c
  else
    match rule s.base.code c.code with
    | some code => { s with base := ⟨code, 0⟩ }
    | none => s.keep c

/-- Adds a character. Only a character that can be the second of two that compose makes the last
character the base. -/
def add (s : Composing) (c : Ranked) : Composing :=
  if s.syllables || Hangul.isVowelOrTail c.code then
    { s with syllables := true }.join Hangul.compose? c
  else if combinesBackward c.code then s.join composition? c
  else s.keep c

end Composing

def compose : List Ranked → List Nat
  | [] => []
  | first :: rest => (rest.foldl Composing.add ⟨[], first, [], false⟩).result

def normalRun (run : List Nat) : List Nat :=
  (segments [] (run.flatMap decomposition)).flatMap fun segment =>
    compose (orderMarks segment).reverse

def normalCodes (cs : List Nat) : List Nat := (runs 0 [] cs).flatMap normalRun

/-- The compatibility normal form of a text. ASCII texts are normal. -/
def normalForm (t : Text) : Text :=
  if t.all (· < 128) then t
  else encode ((normalCodes ((chars t).map Char.toNat)).map Char.ofNat)

end ExprBackend.Text
