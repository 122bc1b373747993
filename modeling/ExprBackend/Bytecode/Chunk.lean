import ExprBackend.Error

/-! # Chunks

A chunk is code with the data it refers to: its constants, its jump tables and
the names of its local slots.
-/

namespace ExprBackend

/-- Maps small integers to code offsets. -/
structure JumpTable where
  /-- Offsets by number; a negative one stands for the default. -/
  targets : List Int
  default : Int
  deriving DecidableEq

/-- The offset for a value: the entry of an integer that has one, and the default for all else. -/
def JumpTable.lookup (table : JumpTable) : Value → Int
  | .int i =>
    if 0 ≤ i.toInt then
      match table.targets[i.toInt.toNat]? with
      | some target => if 0 ≤ target then target else table.default
      | none => table.default
    else table.default
  | _ => table.default

structure Chunk where
  code : Array UInt8 := #[]
  constants : Array Value := #[]
  tables : List JumpTable := []
  /-- The names of the local slots, parameters first. -/
  localNames : List Text := []
  /-- The deepest operand stack that the code can reach. -/
  maxStack : Int := 0
  deriving DecidableEq

namespace Chunk

def writeByte (c : Chunk) (b : UInt8) : Chunk := { c with code := c.code.push b }

/-- The two bytes of a 16-bit operand, the high one first; larger numbers are reduced. -/
def wordBytes (n : Int) : UInt8 × UInt8 :=
  let word := (n % 65536).toNat
  ((word / 256).toUInt8, (word % 256).toUInt8)

def writeWord (c : Chunk) (n : Int) : Chunk :=
  let (high, low) := wordBytes n
  (c.writeByte high).writeByte low

/-- Puts a value into the constant pool and gives its index. A value that is identical to one in
the pool shares its place. A value whose index no operand can hold joins the pool all the same. -/
def addConstant (c : Chunk) (v : Value) : Except Fault Nat × Chunk :=
  match c.constants.findIdx? (·.identical v) with
  | some i => (.ok i, c)
  | none =>
    (if c.constants.size < 65536 then .ok c.constants.size else .error .fullPool,
      { c with constants := c.constants.push v })

def addConstants (c : Chunk) : List Value → Except Fault (List Nat) × Chunk
  | [] => (.ok [], c)
  | v :: vs =>
    match c.addConstant v with
    | (.error f, c) => (.error f, c)
    | (.ok i, c) =>
      let (indices, c) := c.addConstants vs
      (indices.map (i :: ·), c)

end Chunk

end ExprBackend
