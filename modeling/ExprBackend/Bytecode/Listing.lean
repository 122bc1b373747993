import ExprBackend.Bytecode.Opcode
import ExprBackend.Error
import ExprBackend.Operator.Kind
import ExprBackend.View.Text

/-! # Listings

A listing shows a chunk line by line: its locals, every instruction with its
offset and its operand, and the jump tables.
-/

namespace ExprBackend.Listing

structure Style where
  operation : Text → Text
  constant : Text → Text
  target : Text → Text

def Style.plain : Style := ⟨id, id, id⟩

def inColour (colour : Nat) (t : Text) : Text :=
  "\x1b[" ++ Text.ofNat colour ++ "m" ++ t ++ "\x1b[0m"

def Style.coloured : Style := ⟨inColour 36, inColour 33, inColour 35⟩

def symbolOf {α : Type} (symbol : α → Text) : Option α → Except Fault Text
  | some op => .ok (symbol op)
  | none => .error .unknownOperator

def byteOperand (op : Opcode) (operand : UInt8) : Except Fault Text :=
  match op with
  | .unary => symbolOf UnaryOp.symbol (UnaryOp.ofCode? operand)
  | .binary => symbolOf BinaryOp.symbol (BinaryOp.ofCode? operand)
  | .compare => symbolOf CompareOp.symbol (CompareOp.ofCode? operand)
  | .callEx => .ok (if operand % 2 == 1 then "method" else "plain")
  | _ => .ok (Text.ofNat operand.toNat)

/-- A constant between apostrophes; a text is shown as it is. -/
def constantText (h : Heap) (chunk : Chunk) (index : Nat) : Text :=
  match chunk.constants[index]? with
  | some (.str s) => "'" ++ s ++ "'"
  | some v => "'" ++ h.text v ++ "'"
  | none => "<bad constant>"

def localName (chunk : Chunk) (slot : Nat) : Text := chunk.localNames[slot]?.getD "?"

def wordOperand (style : Style) (h : Heap) (chunk : Chunk) (op : Opcode) (operand : Nat) : Text :=
  if op.isJump then style.target ("-> " ++ Text.zeroPadded 4 operand)
  else
    match op with
    | .loadConst | .loadGlobal | .getAttr | .loadMethod =>
      Text.ofNat operand ++ " " ++ style.constant (constantText h chunk operand)
    | .loadLocal | .storeLocal => Text.ofNat operand ++ " (" ++ localName chunk operand ++ ")"
    | _ => Text.ofNat operand

/-- The line of the instruction at an offset, and the offset of the next one. -/
def instruction (style : Style) (h : Heap) (chunk : Chunk) (offset : Nat) (code : UInt8) :
    Except Fault (Text × Nat) := do
  let start : Text := Text.zeroPadded 4 offset ++ "  "
  let name := Opcode.nameOfCode code
  let width := Opcode.widthOfCode code
  if chunk.code.size ≤ offset + width then
    return (start ++ style.operation name ++ " (missing operands)\n", chunk.code.size)
  let rest ← match Opcode.ofCode? code, width with
    | some op, 1 =>
      let operand ← byteOperand op (chunk.code[offset + 1]?.getD 0)
      pure (style.operation (Text.padRight 20 name) ++ " " ++ operand)
    | some op, 2 =>
      let high := chunk.code[offset + 1]?.getD 0
      let low := chunk.code[offset + 2]?.getD 0
      let operand := high.toNat * 256 + low.toNat
      pure (style.operation (Text.padRight 20 name) ++ " " ++ wordOperand style h chunk op operand)
    | _, _ => pure (style.operation name)
  return (start ++ rest ++ "\n", offset + 1 + width)

def instructions (style : Style) (h : Heap) (chunk : Chunk) :
    (tries : Nat) → (offset : Nat) → Except Fault Text
  | 0, _ => .ok []
  | tries + 1, offset =>
    match chunk.code[offset]? with
    | none => .ok []
    | some code => do
      let (line, next) ← instruction style h chunk offset code
      return line ++ (← instructions style h chunk tries next)

def tableLine (number : Nat) (table : JumpTable) : Text :=
  "table " ++ Text.ofNat number ++ ": targets=[" ++ Text.join " " (table.targets.map Text.ofInt)
    ++ "] default=" ++ Text.zeroPadded 4 table.default ++ "\n"

def ofChunk (style : Style) (h : Heap) (name : Text) (chunk : Chunk) : Except Fault Text := do
  let heading : Text := "== " ++ name ++ " ==\n"
  let locals : Text := if chunk.localNames.isEmpty then []
    else "locals: " ++ Text.join ", " chunk.localNames ++ "\n"
  let code ← instructions style h chunk chunk.code.size 0
  return heading ++ locals ++ code
    ++ (chunk.tables.zipIdx.map fun (table, number) => tableLine number table).flatten

end ExprBackend.Listing
