/-! # Shortest decimal digits

The digits of a binary floating point number are the fewest that read back as
the same number and, of those, the nearest to it. All arithmetic is exact: the
number is a fraction, and the fractions that round to it form an interval whose
ends belong to it exactly when the significand is even.
-/

namespace ExprBackend.Number

/-- A finite positive number: `significand * 2 ^ exponent`. -/
structure Binary where
  significand : Nat
  exponent : Int
  /-- The next smaller number is nearer than the next larger one. -/
  closerBelow : Bool

/-- Decimal digits of a natural number, as the number itself and its decimal scale: the value is
`digits * 10 ^ scale`. -/
structure Decimal where
  digits : Nat
  scale : Int

/-- A number with the ends of the interval of numbers that round to it, as multiples of one
quarter of the last place over a common denominator. -/
structure Binary.Interval where
  low : Nat
  middle : Nat
  high : Nat
  denominator : Nat
  closed : Bool

def Binary.interval (b : Binary) : Binary.Interval :=
  let low := if b.closerBelow then 4 * b.significand - 1 else 4 * b.significand - 2
  let scale := Nat.pow 2 (b.exponent - 2).toNat
  { low := low * scale
    middle := 4 * b.significand * scale
    high := (4 * b.significand + 2) * scale
    denominator := Nat.pow 2 (2 - b.exponent).toNat
    closed := b.significand % 2 == 0 }

def digitCount (n : Nat) : Nat := (Nat.toDigits 10 n).length

/-- The exponent of the first decimal digit of a positive fraction. -/
def leadingExponent (numerator denominator : Nat) : Int :=
  if denominator ≤ numerator then digitCount (numerator / denominator) - 1
  else - (digitCount ((denominator + numerator - 1) / numerator - 1) : Int)

/-- Whether `digits * 10 ^ scale` lies in the interval. -/
def Binary.Interval.holds (i : Binary.Interval) (digits : Nat) (scale : Int) : Bool :=
  let value := digits * Nat.pow 10 scale.toNat * i.denominator
  let unit := Nat.pow 10 (-scale).toNat
  if i.closed then i.low * unit ≤ value && value ≤ i.high * unit
  else i.low * unit < value && value < i.high * unit

/-- The point of the interval on the grid of step `10 ^ scale` that is nearest to the number: of the
two neighbours of the number on that grid, the one inside; of two inside, the nearer; of two equally
near, the even one. -/
def Binary.Interval.nearest? (i : Binary.Interval) (scale : Int) : Option Nat :=
  let numerator := i.middle * Nat.pow 10 (-scale).toNat
  let denominator := i.denominator * Nat.pow 10 scale.toNat
  let below := numerator / denominator
  let twiceRest := 2 * (numerator % denominator)
  match i.holds below scale, i.holds (below + 1) scale with
  | true, true =>
    if twiceRest < denominator || (twiceRest == denominator && below % 2 == 0) then some below
    else some (below + 1)
  | true, false => some below
  | false, true => some (below + 1)
  | false, false => none

def Binary.Interval.search (i : Binary.Interval) (top : Int) : (tries count : Nat) → Decimal
  | 0, _ => ⟨0, 0⟩
  | tries + 1, count =>
    let scale := top - count
    match i.nearest? scale with
    | some digits => ⟨digits, scale⟩
    | none => i.search top tries (count + 1)

/-- The shortest decimal that reads back as the number. Seventeen digits always do. -/
def Binary.shortest (b : Binary) : Decimal :=
  let i := b.interval
  i.search (leadingExponent i.middle i.denominator) 18 0

def Decimal.trimmed (d : Decimal) : (zeros : Nat) → Decimal
  | 0 => d
  | zeros + 1 =>
    if d.digits % 10 == 0 then Decimal.trimmed ⟨d.digits / 10, d.scale + 1⟩ zeros else d

end ExprBackend.Number
