import ExprBackend.Error

/-! # Resolving slices

A slice of a sequence takes the positions from a start towards a stop by a step.
Bounds that are left out stand for the ends of the sequence in the direction of
the step; negative ones count from the end; all are clamped to the sequence. The
arithmetic is that of 64-bit words, and the walk stops before a step would leave
the sequence, so it never overflows.
-/

namespace ExprBackend.Slicing

/-- A bound as an integer; `none` when it is left out. -/
def bound (what : Text) : Value → Except RuntimeError (Option Int64)
  | .none | .noReceiver => .ok none
  | .int i => .ok (some i)
  | v => .error (.sliceBound what v.kind)

/-- A bound within a sequence: from its first place to behind its last for a step upwards, and from
before its first place to its last for a step downwards. -/
def clamp (length step : Int64) (i : Int64) : Int64 :=
  if i < 0 then
    if i + length < 0 then (if step > 0 then 0 else -1) else i + length
  else if i ≥ length then (if step > 0 then length else length - 1)
  else i

def ascend (stop step : Int64) : (tries : Nat) → (i : Int64) → List Int64
  | 0, _ => []
  | tries + 1, i =>
    if i < stop then
      if step ≥ stop - i then [i] else i :: ascend stop step tries (i + step)
    else []

def descend (stop step : Int64) : (tries : Nat) → (i : Int64) → List Int64
  | 0, _ => []
  | tries + 1, i =>
    if i > stop then
      if step ≤ stop - i then [i] else i :: descend stop step tries (i + step)
    else []

/-- The positions that a slice selects from a sequence of the given length. Every position is
another place of the sequence, so there are at most as many as it is long. -/
def positions (start stop step : Value) (count : Nat) : Except RuntimeError (List Int64) := do
  let step := (← bound "step" step).getD 1
  if step == 0 then throw .zeroStep
  let length := Int64.ofNat count
  let (first, last) := if step > 0 then ((0 : Int64), length) else (length - 1, (-1 : Int64))
  let start := match ← bound "index" start with
    | some i => clamp length step i
    | none => first
  let stop := match ← bound "index" stop with
    | some i => clamp length step i
    | none => last
  return if step > 0 then ascend stop step count start else descend stop step count start

def select {α : Type} (items : Array α) (places : List Int64) : List α :=
  places.filterMap fun i => items[i.toInt.toNat]?

def items {α : Type} (start stop step : Value) (sequence : List α) : Except RuntimeError (List α) :=
  (positions start stop step sequence.length).map (select sequence.toArray)

end ExprBackend.Slicing
