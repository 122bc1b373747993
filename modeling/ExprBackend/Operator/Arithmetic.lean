import ExprBackend.Heap.Run
import ExprBackend.Operator.Integer

/-! # Arithmetic on values

Unary and binary operators on values. Two integers give an integer where they
can, other numbers count as floating point numbers; texts, lists and tuples can
be joined and repeated.
-/

namespace ExprBackend

def Real.binary (op : BinaryOp) (a b : Float) : Except RuntimeError Value :=
  match op with
  | .add => .ok (.float (a + b))
  | .sub => .ok (.float (a - b))
  | .mul => .ok (.float (a * b))
  | .div => if b == 0 then .error (.division .realQuotient) else .ok (.float (a / b))
  | .floorDiv =>
    if b == 0 then .error (.division .realFloorQuotient) else .ok (.float (a / b).floor)
  | .mod => if b == 0 then .error (.division .realRemainder)
    else .ok (.float (Number.floorRemainder a b))
  | .pow => if a == 0 && b < 0 then .error (.division .power) else .ok (.float (Number.power a b))
  | .shiftLeft | .shiftRight | .and | .or | .xor => .error (.operands op.symbol [.float, .float])

namespace Run

def truthy (v : Value) : Run Bool := return (← get).truthy v

def unary (op : UnaryOp) (v : Value) : Run Value :=
  match op, v with
  | .not, v => return .bool !(← truthy v)
  | .negate, .int i => return .int (-i)
  | .negate, .float f => return .float (-f)
  | .plus, .int i => return .int i
  | .plus, .float f => return .float f
  | .invert, .int i => return .int (~~~i)
  | op, v => fail (.operands op.symbol [v.kind])

def maxRepetition : Nat := Nat.pow 2 28

def repetitionTooLong (size count : Nat) : Bool := 0 < size && maxRepetition / size < count

def repeated {α : Type} (count : Nat) (items : List α) : List α :=
  (List.replicate count items).flatten

def repeatItems {α : Type} (count : Nat) (items : List α) : Run (List α) :=
  if repetitionTooLong items.length count then fail .repetitionTooLong
  else if items.isEmpty then pure []
  else pure (repeated count items)

/-- A sequence repeated; a negative count stands for zero. -/
def repeatSequence (sequence : Value) (count : Int64) : Run Value := do
  let times := count.toInt.toNat
  match sequence with
  | .str s => return .str (← repeatItems times s)
  | .list r => newList (← repeatItems times ((← get).list r))
  | .tuple r => newTuple (← repeatItems times ((← get).tuple r))
  | v => fail (.operands BinaryOp.mul.symbol [v.kind, .int])

def concat (a b : Value) : Run Value := do
  match a, b with
  | .str s, .str t => return .str (s ++ t)
  | .list r, .list s => newList ((← get).list r ++ (← get).list s)
  | .tuple r, .tuple s => newTuple ((← get).tuple r ++ (← get).tuple s)
  | a, b => fail (.operands BinaryOp.add.symbol [a.kind, b.kind])

def binary (op : BinaryOp) (a b : Value) : Run Value :=
  match a, b with
  | .int i, .int j => ofExcept (Integer.binary op i j)
  | .int i, .float g => ofExcept (Real.binary op i.toFloat g)
  | .float f, .int j => ofExcept (Real.binary op f j.toFloat)
  | .float f, .float g => ofExcept (Real.binary op f g)
  | a, b =>
    match op, a, b with
    | .add, a, b => concat a b
    | .mul, a, .int n => repeatSequence a n
    | .mul, .int n, b => repeatSequence b n
    | op, a, b => fail (.operands op.symbol [a.kind, b.kind])

def unaryCode (code : UInt8) (v : Value) : Run Value :=
  match UnaryOp.ofCode? code with
  | some op => unary op v
  | none => stop .unknownOperator

def binaryCode (code : UInt8) (a b : Value) : Run Value :=
  match BinaryOp.ofCode? code with
  | some op => binary op a b
  | none => stop .unknownOperator

end Run

end ExprBackend
