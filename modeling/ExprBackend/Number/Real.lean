import ExprBackend.Number.Exponential
import ExprBackend.Text.Basic

/-! # Floating point numbers

Text, remainder and powers of double precision numbers. A number is written
with its shortest digits: positionally when the exponent of its first digit
lies between -4 and 5, and otherwise with an exponent of at least two digits.
-/

namespace ExprBackend.Number

/-- Decimal digits written without an exponent; `point` digits stand before the point. -/
def positional (digits : List Char) (point : Int) : List Char :=
  if point ≤ 0 then '0' :: '.' :: List.replicate (-point).toNat '0' ++ digits
  else if digits.length ≤ point.toNat then
    digits ++ List.replicate (point.toNat - digits.length) '0'
  else digits.take point.toNat ++ '.' :: digits.drop point.toNat

def scientific (digits : List Char) (exponent : Int) : List Char :=
  let mantissa := match digits with
    | [] => []
    | [d] => [d]
    | d :: rest => d :: '.' :: rest
  let size := Nat.toDigits 10 exponent.natAbs
  mantissa ++ 'e' :: (if exponent < 0 then '-' else '+')
    :: List.replicate (2 - size.length) '0' ++ size

def magnitudeChars (b : Binary) : List Char :=
  let d := b.shortest.trimmed 20
  let digits := Nat.toDigits 10 d.digits
  let exponent := d.scale + digits.length - 1
  if exponent < -4 || 6 ≤ exponent then scientific digits exponent
  else positional digits (exponent + 1)

def signChars (negative : Bool) : List Char := if negative then ['-'] else []

def floatChars (f : Float) : List Char :=
  match classify f with
  | .notANumber => "NaN".toList
  | .infinite negative => if negative then "-Inf".toList else "+Inf".toList
  | .zero negative => signChars negative ++ ['0']
  | .finite negative magnitude => signChars negative ++ magnitudeChars magnitude

def floatDigits (f : Float) : Text := Text.ofChars (floatChars f)

/-- The text of a floating point number that cannot be taken for an integer. -/
def floatText (f : Float) : Text :=
  let cs := floatChars f
  if cs.any (fun c => c == '.' || c == 'e' || c == 'N' || c == 'I') then Text.ofChars cs
  else Text.ofChars cs ++ ".0"

/-- The exact remainder of a division whose quotient is cut towards zero; it has the sign of the
dividend. -/
def remainder (a b : Float) : Float :=
  match classify a, classify b with
  | .notANumber, _ | _, .notANumber | .infinite _, _ | _, .zero _ => nan
  | .zero _, _ | _, .infinite _ => a
  | .finite negative x, .finite _ y =>
    let exponent := min x.exponent y.exponent
    let dividend := x.significand * Nat.pow 2 (x.exponent - exponent).toNat
    let divisor := y.significand * Nat.pow 2 (y.exponent - exponent).toNat
    withSign negative ((dividend % divisor).toUInt64.toFloat.scaleB exponent)

/-- The remainder that belongs to a quotient rounded down: it is zero or has the sign of the
divisor. -/
def floorRemainder (a b : Float) : Float :=
  let m := remainder a b
  if m != 0 && (m < 0) != (b < 0) then m + b else m

/-- Whether a number is an odd integer. From `2 ^ 53` on every number is even. -/
def isOddInteger (f : Float) : Bool :=
  f.abs < 9007199254740992.0 && f.floor == f && f.toInt64 % 2 != 0

/-- A power with a positive integer exponent, as significand and binary exponent. The exponent is
taken bit by bit; once the binary exponent leaves the range of all numbers, the rest cannot bring
it back. -/
def powerLoop : (bits : Nat) → (count : Nat) → (factor : Float) → (factorExponent : Int) →
    (result : Float) → (exponent : Int) → Float × Int
  | 0, _, _, _, result, exponent => (result, exponent)
  | bits + 1, count, factor, factorExponent, result, exponent =>
    if count == 0 then (result, exponent)
    else if factorExponent < -4096 || 4096 < factorExponent then (result, exponent + factorExponent)
    else
      let (result, exponent) := if count % 2 == 1 then (result * factor, exponent + factorExponent)
        else (result, exponent)
      let square := factor * factor
      let (square, squareExponent) := if square < 0.5 then (square + square, 2 * factorExponent - 1)
        else (square, 2 * factorExponent)
      powerLoop bits (count / 2) square squareExponent result exponent

def finitePower (x y : Float) : Float :=
  let size := y.abs
  let whole := size.floor
  let part := size - whole
  if part != 0 && x < 0 then nan
  else if 9223372036854775808.0 ≤ whole then
    if x == -1 then 1 else if (x.abs < 1) == (0 < y) then 0 else 1.0 / 0.0
  else
    let (part, whole) := if 0.5 < part then (part - 1, whole + 1) else (part, whole)
    let start := if part != 0 then exponential (part * logarithm x) else 1.0
    let (factor, factorExponent) := x.frExp
    let (result, exponent) := powerLoop 64 whole.toUInt64.toNat factor factorExponent start 0
    if y < 0 then (1.0 / result).scaleB (-exponent) else result.scaleB exponent

def power (x y : Float) : Float :=
  if y == 0 || x == 1 then 1
  else if y == 1 then x
  else match classify x, classify y with
    | .notANumber, _ | _, .notANumber => nan
    | .zero negative, _ =>
      if y < 0 then withSign (negative && isOddInteger y) (1.0 / 0.0)
      else withSign (negative && isOddInteger y) 0
    | _, .infinite negative =>
      if x == -1 then 1 else if (x.abs < 1) == !negative then 0 else 1.0 / 0.0
    | .infinite negative, _ =>
      if y < 0 then withSign (negative && isOddInteger y) 0
      else withSign (negative && isOddInteger y) (1.0 / 0.0)
    | _, _ =>
      if y == 0.5 then x.sqrt
      else if y == -0.5 then 1.0 / x.sqrt
      else finitePower x y

def isSmallInteger (f : Float) : Bool := f.floor == f && f.abs < 4611686018427387904.0

end ExprBackend.Number
