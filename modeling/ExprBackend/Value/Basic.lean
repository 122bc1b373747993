import ExprBackend.Text.Basic

/-! # Values

Scalars are values themselves; everything with an identity is a reference to a
cell of the heap. So two values are identical exactly when they are equal as
data, except that the placeholder for an absent receiver counts as `none`.
-/

namespace ExprBackend

inductive Kind where
  | none | bool | int | float | str | list | tuple | dict | slice | function | object
  deriving DecidableEq

namespace Kind

def name : Kind → Text
  | .none => "none"
  | .bool => "bool"
  | .int => "int"
  | .float => "float"
  | .str => "str"
  | .list => "list"
  | .tuple => "tuple"
  | .dict => "dict"
  | .slice => "slice"
  | .function => "function"
  | .object => "object"

/-- The kinds in the order of their numbers. -/
def all : List Kind :=
  [.none, .bool, .int, .float, .str, .list, .tuple, .dict, .slice, .function, .object]

/-- The name of the kind with a number, also for numbers that no kind has. -/
def nameOfCode (code : UInt8) : Text :=
  match all[code.toNat]? with
  | some kind => kind.name
  | .none => "<type " ++ Text.ofNat code.toNat ++ ">"

end Kind

/-- The place of a cell in the heap. -/
abbrev Ref := Nat

/-- The value that expressions compute with. -/
inductive Value where
  | none
  /-- Stands where a receiver is absent, and is like `none` everywhere else. -/
  | noReceiver
  | bool (b : Bool)
  | int (i : Int64)
  | float (f : Float)
  | str (s : Text)
  | list (r : Ref)
  | tuple (r : Ref)
  | dict (r : Ref)
  | slice (r : Ref)
  | function (r : Ref)
  | object (r : Ref)
  deriving DecidableEq, Inhabited

structure Keyword where
  name : Text
  value : Value
  deriving DecidableEq

namespace Value

def kind : Value → Kind
  | .none | .noReceiver => .none
  | .bool _ => .bool
  | .int _ => .int
  | .float _ => .float
  | .str _ => .str
  | .list _ => .list
  | .tuple _ => .tuple
  | .dict _ => .dict
  | .slice _ => .slice
  | .function _ => .function
  | .object _ => .object

/-- Identity: equal scalars, or the same reference. Floats are compared bit by bit. -/
def identical : Value → Value → Bool
  | .none, .none | .none, .noReceiver | .noReceiver, .none | .noReceiver, .noReceiver => true
  | .bool a, .bool b => a == b
  | .int a, .int b => a == b
  | .float a, .float b => a.toBits == b.toBits
  | .str a, .str b => a == b
  | .list a, .list b | .tuple a, .tuple b | .dict a, .dict b | .slice a, .slice b
  | .function a, .function b | .object a, .object b => a == b
  | _, _ => false

def isNone (v : Value) : Bool := v.kind == .none

/-- The integer a value holds: the truth values hold 0 and 1, and all that is no number holds 0. -/
def integer : Value → Int64
  | .bool b => if b then 1 else 0
  | .int i => i
  | _ => 0

/-- The floating point number a value holds, or zero. -/
def real : Value → Float
  | .float f => f
  | _ => 0

/-- The text a value holds, or the empty text. -/
def text : Value → Text
  | .str s => s
  | _ => []

end Value

end ExprBackend
