import ExprBackend.Text.Basic

/-! # Operators

The operators with their symbols and their numbers in code.
-/

namespace ExprBackend

inductive UnaryOp where
  | negate | plus | not | invert
  deriving DecidableEq

inductive BinaryOp where
  | add | sub | mul | div | floorDiv | mod | pow | shiftLeft | shiftRight | and | or | xor
  deriving DecidableEq

inductive CompareOp where
  | eq | ne | lt | le | gt | ge | isIn | notIn | is | isNot
  deriving DecidableEq

namespace UnaryOp

/-- The operators in the order of their numbers. -/
def all : List UnaryOp := [.negate, .plus, .not, .invert]

def code : UnaryOp → UInt8
  | .negate => 0
  | .plus => 1
  | .not => 2
  | .invert => 3

def ofCode? (code : UInt8) : Option UnaryOp := all[code.toNat]?

def symbol : UnaryOp → Text
  | .negate => "-"
  | .plus => "+"
  | .not => "not"
  | .invert => "~"

end UnaryOp

namespace BinaryOp

def all : List BinaryOp :=
  [.add, .sub, .mul, .div, .floorDiv, .mod, .pow, .shiftLeft, .shiftRight, .and, .or, .xor]

def code : BinaryOp → UInt8
  | .add => 0
  | .sub => 1
  | .mul => 2
  | .div => 3
  | .floorDiv => 4
  | .mod => 5
  | .pow => 6
  | .shiftLeft => 7
  | .shiftRight => 8
  | .and => 9
  | .or => 10
  | .xor => 11

def ofCode? (code : UInt8) : Option BinaryOp := all[code.toNat]?

def symbol : BinaryOp → Text
  | .add => "+"
  | .sub => "-"
  | .mul => "*"
  | .div => "/"
  | .floorDiv => "//"
  | .mod => "%"
  | .pow => "**"
  | .shiftLeft => "<<"
  | .shiftRight => ">>"
  | .and => "&"
  | .or => "|"
  | .xor => "^"

end BinaryOp

namespace CompareOp

def all : List CompareOp := [.eq, .ne, .lt, .le, .gt, .ge, .isIn, .notIn, .is, .isNot]

def code : CompareOp → UInt8
  | .eq => 0
  | .ne => 1
  | .lt => 2
  | .le => 3
  | .gt => 4
  | .ge => 5
  | .isIn => 6
  | .notIn => 7
  | .is => 8
  | .isNot => 9

def ofCode? (code : UInt8) : Option CompareOp := all[code.toNat]?

def symbol : CompareOp → Text
  | .eq => "=="
  | .ne => "!="
  | .lt => "<"
  | .le => "<="
  | .gt => ">"
  | .ge => ">="
  | .isIn => "in"
  | .notIn => "not in"
  | .is => "is"
  | .isNot => "is not"

end CompareOp

end ExprBackend
