import ExprBackend.Number.Shortest

/-! # Kinds of floating point numbers

A double precision number is no number, infinite, zero, or finite with an exact
binary value. An exact binary value that is no such number is rounded to the
nearest one.
-/

namespace ExprBackend.Number

inductive Class where
  | notANumber
  | infinite (negative : Bool)
  | zero (negative : Bool)
  | finite (negative : Bool) (magnitude : Binary)

def classify (f : Float) : Class :=
  let bits := f.toBits.toNat
  let negative := bits / Nat.pow 2 63 == 1
  let exponent : Nat := bits / Nat.pow 2 52 % 2048
  let fraction : Nat := bits % Nat.pow 2 52
  if exponent == 2047 then if fraction == 0 then .infinite negative else .notANumber
  else if exponent == 0 then
    if fraction == 0 then .zero negative else .finite negative ⟨fraction, -1074, false⟩
  else
    .finite negative
      ⟨Nat.pow 2 52 + fraction, (exponent : Int) - 1075, fraction == 0 && 1 < exponent⟩

def withSign (negative : Bool) (magnitude : Float) : Float :=
  if negative then -magnitude else magnitude

/-- The number that is none. -/
def nan : Float := 0.0 / 0.0

/-- An exact binary value, `significand * 2 ^ exponent`. -/
structure Exact where
  significand : Int
  exponent : Int

namespace Exact

def ofFloat (f : Float) : Exact :=
  match classify f with
  | .finite negative b =>
    ⟨if negative then -(b.significand : Int) else b.significand, b.exponent⟩
  | _ => ⟨0, 0⟩

def mul (a b : Exact) : Exact := ⟨a.significand * b.significand, a.exponent + b.exponent⟩

def add (a b : Exact) : Exact :=
  let exponent := min a.exponent b.exponent
  ⟨a.significand * Nat.pow 2 (a.exponent - exponent).toNat
    + b.significand * Nat.pow 2 (b.exponent - exponent).toNat, exponent⟩

/-- The nearest number, of two equally near the even one. The significand is cut to 63 bits first;
a last bit that is set stands for all the bits that were cut off. -/
def toFloat (a : Exact) : Float :=
  let size := a.significand.natAbs
  let dropped := size.log2 - 62
  let unit := Nat.pow 2 dropped
  let kept := size / unit
  let kept := if size % unit == 0 then kept else kept ||| 1
  withSign (a.significand < 0) (kept.toUInt64.toFloat.scaleB (a.exponent + dropped))

end Exact

/-- `a * b + c`, rounded once. -/
def fused (a b c : Float) : Float :=
  (((Exact.ofFloat a).mul (Exact.ofFloat b)).add (Exact.ofFloat c)).toFloat

end ExprBackend.Number
