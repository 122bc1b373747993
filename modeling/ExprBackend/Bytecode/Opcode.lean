import ExprBackend.Text.Basic

/-! # Instructions of the stack machine

An instruction is one byte of operation code, followed by no operand, by an
operand of one byte (the number of an operator or a flag), or by one of two
bytes (an index, a count or an offset), the high byte first.
-/

namespace ExprBackend

/-- The operations of the stack machine, in the order of their codes. -/
inductive Opcode where
  | loadConst
  | loadNone
  | loadLocal
  | storeLocal
  /-- Pushes the global named by a constant. -/
  | loadGlobal
  | pop
  | dup
  | rot2
  /-- Moves the top below the two values under it. -/
  | rot3
  | unary
  | binary
  | compare
  | getIndex
  /-- Sets an item and pops value, container and key. -/
  | storeIndex
  | buildSlice
  | getAttr
  /-- Replaces the top by a function and the receiver to pass to it. -/
  | loadMethod
  | buildList
  | buildTuple
  | buildDict
  /-- Pops a sequence and adds its items to the list below. -/
  | listExtend
  /-- Pops a dictionary and adds its entries to the one below. -/
  | dictMerge
  /-- Pops a sequence and pushes its items, the first on top. -/
  | unpack
  | call
  /-- Calls a function with a receiver and positional arguments. -/
  | callMethod
  /-- Calls a function with a list of arguments and a dictionary of keywords. -/
  | callEx
  | jump
  /-- Pops, and goes on at an offset if the value is false. -/
  | jumpIfFalse
  /-- Pops, and goes on at an offset if the value is true. -/
  | jumpIfTrue
  /-- Goes on at an offset if the top is false, and pops it otherwise. -/
  | jumpIfFalseOrPop
  /-- Goes on at an offset if the top is true, and pops it otherwise. -/
  | jumpIfTrueOrPop
  /-- Pops, and goes on at the offset that a jump table has for the value. -/
  | jumpTable
  | ret
  /-- Pops a pair and fails with it. -/
  | invalidAction
  deriving DecidableEq

namespace Opcode

def all : List Opcode :=
  [.loadConst, .loadNone, .loadLocal, .storeLocal, .loadGlobal, .pop, .dup, .rot2, .rot3,
   .unary, .binary, .compare, .getIndex, .storeIndex, .buildSlice, .getAttr, .loadMethod,
   .buildList, .buildTuple, .buildDict, .listExtend, .dictMerge, .unpack, .call,
   .callMethod, .callEx, .jump, .jumpIfFalse, .jumpIfTrue, .jumpIfFalseOrPop,
   .jumpIfTrueOrPop, .jumpTable, .ret, .invalidAction]

def code : Opcode → UInt8
  | .loadConst => 0
  | .loadNone => 1
  | .loadLocal => 2
  | .storeLocal => 3
  | .loadGlobal => 4
  | .pop => 5
  | .dup => 6
  | .rot2 => 7
  | .rot3 => 8
  | .unary => 9
  | .binary => 10
  | .compare => 11
  | .getIndex => 12
  | .storeIndex => 13
  | .buildSlice => 14
  | .getAttr => 15
  | .loadMethod => 16
  | .buildList => 17
  | .buildTuple => 18
  | .buildDict => 19
  | .listExtend => 20
  | .dictMerge => 21
  | .unpack => 22
  | .call => 23
  | .callMethod => 24
  | .callEx => 25
  | .jump => 26
  | .jumpIfFalse => 27
  | .jumpIfTrue => 28
  | .jumpIfFalseOrPop => 29
  | .jumpIfTrueOrPop => 30
  | .jumpTable => 31
  | .ret => 32
  | .invalidAction => 33

def ofCode? (code : UInt8) : Option Opcode := all[code.toNat]?

def name : Opcode → Text
  | .loadConst => "OpLoadConst"
  | .loadNone => "OpLoadNone"
  | .loadLocal => "OpLoadLocal"
  | .storeLocal => "OpStoreLocal"
  | .loadGlobal => "OpLoadGlobal"
  | .pop => "OpPop"
  | .dup => "OpDup"
  | .rot2 => "OpRot2"
  | .rot3 => "OpRot3"
  | .unary => "OpUnary"
  | .binary => "OpBinary"
  | .compare => "OpCompare"
  | .getIndex => "OpGetIndex"
  | .storeIndex => "OpStoreIndex"
  | .buildSlice => "OpBuildSlice"
  | .getAttr => "OpGetAttr"
  | .loadMethod => "OpLoadMethod"
  | .buildList => "OpBuildList"
  | .buildTuple => "OpBuildTuple"
  | .buildDict => "OpBuildDict"
  | .listExtend => "OpListExtend"
  | .dictMerge => "OpDictMerge"
  | .unpack => "OpUnpack"
  | .call => "OpCall"
  | .callMethod => "OpCallMethod"
  | .callEx => "OpCallEx"
  | .jump => "OpJump"
  | .jumpIfFalse => "OpJumpIfFalse"
  | .jumpIfTrue => "OpJumpIfTrue"
  | .jumpIfFalseOrPop => "OpJumpIfFalseOrPop"
  | .jumpIfTrueOrPop => "OpJumpIfTrueOrPop"
  | .jumpTable => "OpJumpTable"
  | .ret => "OpReturn"
  | .invalidAction => "OpInvalidAction"

/-- The name of the operation with a code, also for codes that no operation has. -/
def nameOfCode (code : UInt8) : Text :=
  match ofCode? code with
  | some op => op.name
  | none => "UnknownOp(" ++ Text.ofNat code.toNat ++ ")"

def width : Opcode → Nat
  | .unary | .binary | .compare | .callEx => 1
  | .loadConst | .loadLocal | .storeLocal | .loadGlobal | .getAttr | .loadMethod | .buildList
  | .buildTuple | .buildDict | .unpack | .call | .callMethod | .jump | .jumpIfFalse
  | .jumpIfTrue | .jumpIfFalseOrPop | .jumpIfTrueOrPop | .jumpTable => 2
  | _ => 0

def widthOfCode (code : UInt8) : Nat := ((ofCode? code).map width).getD 0

/-- Whether the operand of an operation is a code offset. -/
def isJump : Opcode → Bool
  | .jump | .jumpIfFalse | .jumpIfTrue | .jumpIfFalseOrPop | .jumpIfTrueOrPop => true
  | _ => false

end Opcode

end ExprBackend
