import ExprBackend.Error
import ExprBackend.Number.Real
import ExprBackend.Operator.Kind

/-! # Operators on integers

Integers have 64 bits and wrap around. Quotients are rounded down, remainders
have the sign of the divisor, and shifts by more than the width shift everything
out.
-/

namespace ExprBackend.Integer

/-- The quotient rounded down. -/
def floorDiv (a b : Int64) : Int64 :=
  if a % b != 0 && (a < 0) != (b < 0) then a / b - 1 else a / b

/-- The remainder that has the sign of the divisor. -/
def floorMod (a b : Int64) : Int64 :=
  let m := a % b
  if m != 0 && (m < 0) != (b < 0) then m + b else m

/-- Multiplies the accumulated product by a power of the base, taking the exponent bit by bit. -/
def powLoop : (bits : Nat) → (base : Int64) → (exponent : Nat) → (product : Int64) → Int64
  | 0, _, _, product => product
  | bits + 1, base, exponent, product =>
    if exponent == 0 then product
    else powLoop bits (base * base) (exponent / 2)
      (if exponent % 2 == 1 then product * base else product)

def pow (a b : Int64) : Int64 := powLoop 64 a b.toInt.toNat 1

/-- Moves the bits up, for a count that is not negative. -/
def shiftLeft (a b : Int64) : Int64 := if b ≥ 64 then 0 else a <<< b

/-- Moves the bits down and keeps the sign, for a count that is not negative. -/
def shiftRight (a b : Int64) : Int64 := if b ≥ 64 then (if a < 0 then -1 else 0) else a >>> b

def binary (op : BinaryOp) (a b : Int64) : Except RuntimeError Value :=
  match op with
  | .add => .ok (.int (a + b))
  | .sub => .ok (.int (a - b))
  | .mul => .ok (.int (a * b))
  | .div => if b == 0 then .error (.division .quotient) else .ok (.float (a.toFloat / b.toFloat))
  | .floorDiv => if b == 0 then .error (.division .floorQuotient) else .ok (.int (floorDiv a b))
  | .mod => if b == 0 then .error (.division .remainder) else .ok (.int (floorMod a b))
  | .pow =>
    if b < 0 then
      if a == 0 then .error (.division .power) else .ok (.float (Number.power a.toFloat b.toFloat))
    else .ok (.int (pow a b))
  | .shiftLeft => if b < 0 then .error .negativeShift else .ok (.int (shiftLeft a b))
  | .shiftRight => if b < 0 then .error .negativeShift else .ok (.int (shiftRight a b))
  | .and => .ok (.int (a &&& b))
  | .or => .ok (.int (a ||| b))
  | .xor => .ok (.int (a ^^^ b))

end ExprBackend.Integer
