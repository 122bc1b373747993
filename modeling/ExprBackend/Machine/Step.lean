import ExprBackend.Bytecode.Opcode
import ExprBackend.Operator.Arguments
import ExprBackend.Operator.Arithmetic
import ExprBackend.Operator.Attribute
import ExprBackend.Operator.Subscript

/-! # Steps of the stack machine

A frame is the state of one activation: its locals, its operand stack with the
top first, and the offset of the next instruction. A step carries out one
instruction. Calls are left to a caller that is given from outside, so that one
step is not recursive.
-/

namespace ExprBackend

abbrev Caller := Value → List Value → List Keyword → Run Value

namespace Machine

structure Frame where
  locals : Array Value
  stack : List Value
  offset : Int
  deriving DecidableEq

inductive Progress where
  | running (frame : Frame)
  | returned (value : Value)

def byteAt (code : Array UInt8) (offset : Int) : Option UInt8 :=
  if 0 ≤ offset then code[offset.toNat]? else none

def operandAt (code : Array UInt8) (offset : Int) (width : Nat) : Option Nat :=
  match width with
  | 0 => some 0
  | 1 => (byteAt code offset).map UInt8.toNat
  | _ =>
    match byteAt code offset, byteAt code (offset + 1) with
    | some high, some low => some (high.toNat * 256 + low.toNat)
    | _, _ => none

def pop (stack : List Value) : Run (Value × List Value) :=
  match stack with
  | v :: rest => pure (v, rest)
  | [] => Run.stop .stackUnderflow

/-- Takes a number of values off a stack, and gives them with the deepest first. -/
def popMany (count : Nat) (stack : List Value) : Run (List Value × List Value) :=
  if count ≤ stack.length then pure ((stack.take count).reverse, stack.drop count)
  else Run.stop .stackUnderflow

def constant (chunk : Chunk) (index : Nat) : Run Value :=
  match chunk.constants[index]? with
  | some v => pure v
  | none => Run.stop .badConstant

/-- The name that a constant gives; a constant that is no text gives the empty name. -/
def constantName (chunk : Chunk) (index : Nat) : Run Text := return (← constant chunk index).text

/-- The arguments with the receiver in front, unless it is absent. -/
def withReceiver (receiver : Value) (args : List Value) : List Value :=
  if receiver = .noReceiver then args else receiver :: args

/-- Adds keyword arguments to a dictionary, none of which may be there already. -/
def mergeKeywords (r : Ref) : List Keyword → Run Unit
  | [] => pure ()
  | keyword :: rest => do
    if (← Run.dictGet? r (.str keyword.name)).isSome then
      Run.fail (.repeatedKeyword keyword.name)
    Run.dictSet r (.str keyword.name) keyword.value
    mergeKeywords r rest

def invalidAction (h : Heap) (pair : Value) : Error :=
  match h.items? pair with
  | some [action, argument] => .invalidAction (h.text action) (h.text argument)
  | _ => .invalidAction (h.text pair) (h.text .none)

/-- Carries out an operation with its operand, in a frame that already points behind it. -/
def execute (call : Caller) (closure : Closure) (chunk : Chunk) (op : Opcode) (operand : Nat)
    (frame : Frame) : Run Progress := do
  let push (v : Value) (stack : List Value) : Progress :=
    .running { frame with stack := v :: stack }
  let goOn (stack : List Value) : Progress := .running { frame with stack }
  let goTo (offset : Int) (stack : List Value) : Progress := .running { frame with stack, offset }
  match op with
  | .loadConst => return push (← constant chunk operand) frame.stack
  | .loadNone => return push .none frame.stack
  | .loadLocal =>
    match frame.locals[operand]? with
    | some v => return push v frame.stack
    | none => Run.stop .badLocal
  | .storeLocal =>
    let (v, stack) ← pop frame.stack
    if operand < frame.locals.size then
      return .running { frame with locals := frame.locals.setIfInBounds operand v, stack }
    else Run.stop .badLocal
  | .loadGlobal =>
    let name ← constantName chunk operand
    match closure.globals.get? name with
    | some v => return push v frame.stack
    | none => throw (.error (.unresolved name))
  | .pop =>
    let (_, stack) ← pop frame.stack
    return goOn stack
  | .dup =>
    let (v, _) ← pop frame.stack
    return push v frame.stack
  | .rot2 =>
    match frame.stack with
    | a :: b :: stack => return goOn (b :: a :: stack)
    | _ => Run.stop .stackUnderflow
  | .rot3 =>
    match frame.stack with
    | c :: b :: a :: stack => return goOn (b :: a :: c :: stack)
    | _ => Run.stop .stackUnderflow
  | .unary =>
    let (v, stack) ← pop frame.stack
    return push (← Run.unaryCode operand.toUInt8 v) stack
  | .binary =>
    let (b, stack) ← pop frame.stack
    let (a, stack) ← pop stack
    return push (← Run.binaryCode operand.toUInt8 a b) stack
  | .compare =>
    let (b, stack) ← pop frame.stack
    let (a, stack) ← pop stack
    return push (← Run.compareCode operand.toUInt8 a b) stack
  | .getIndex =>
    let (index, stack) ← pop frame.stack
    let (base, stack) ← pop stack
    return push (← Run.index base index) stack
  | .storeIndex =>
    let (key, stack) ← pop frame.stack
    let (container, stack) ← pop stack
    let (value, stack) ← pop stack
    Run.setItem container key value
    return goOn stack
  | .buildSlice =>
    let (step, stack) ← pop frame.stack
    let (stop, stack) ← pop stack
    let (start, stack) ← pop stack
    return push (← Run.newSlice start stop step) stack
  | .getAttr =>
    let name ← constantName chunk operand
    let (base, stack) ← pop frame.stack
    return push (← Run.attributeOf base name) stack
  | .loadMethod =>
    let name ← constantName chunk operand
    let (base, stack) ← pop frame.stack
    let (callee, bound) ← Run.method base name
    return push (if bound then base else .noReceiver) (callee :: stack)
  | .buildList =>
    let (items, stack) ← popMany operand frame.stack
    return push (← Run.newList items) stack
  | .buildTuple =>
    let (items, stack) ← popMany operand frame.stack
    return push (← Run.newTuple items) stack
  | .buildDict =>
    let (items, stack) ← popMany (2 * operand) frame.stack
    return push (← Run.buildDict items) stack
  | .listExtend =>
    let (v, stack) ← pop frame.stack
    let items ← Run.spreadArguments v
    match ← pop stack with
    | (.list r, _) =>
      modify fun h => h.modifyList r (· ++ items.toArray)
      return goOn stack
    | (top, _) => Run.stop (.wrongKind top.kind .list)
  | .dictMerge =>
    let (v, stack) ← pop frame.stack
    let keywords ← Run.spreadKeywords v
    match ← pop stack with
    | (.dict r, _) =>
      mergeKeywords r keywords
      return goOn stack
    | (top, _) => Run.stop (.wrongKind top.kind .dict)
  | .unpack =>
    let (v, stack) ← pop frame.stack
    let h ← get
    match h.items? v with
    | some items =>
      if items.length == operand then return goOn (items ++ stack)
      else Run.fail (.unpack (h.text v) operand)
    | none => Run.fail (.unpack (h.text v) operand)
  | .call =>
    let (args, stack) ← popMany operand frame.stack
    let (callee, stack) ← pop stack
    return push (← call callee args []) stack
  | .callMethod =>
    let (args, stack) ← popMany operand frame.stack
    let (receiver, stack) ← pop stack
    let (callee, stack) ← pop stack
    return push (← call callee (withReceiver receiver args) []) stack
  | .callEx =>
    let (keywordDict, stack) ← pop frame.stack
    let (argumentList, stack) ← pop stack
    let args := ((← get).items? argumentList).getD []
    let keywords ← Run.spreadKeywords keywordDict
    if operand % 2 == 1 then
      let (receiver, stack) ← pop stack
      let (callee, stack) ← pop stack
      return push (← call callee (withReceiver receiver args) keywords) stack
    else
      let (callee, stack) ← pop stack
      return push (← call callee args keywords) stack
  | .jump => return goTo operand frame.stack
  | .jumpIfFalse =>
    let (v, stack) ← pop frame.stack
    return if ← Run.truthy v then goOn stack else goTo operand stack
  | .jumpIfTrue =>
    let (v, stack) ← pop frame.stack
    return if ← Run.truthy v then goTo operand stack else goOn stack
  | .jumpIfFalseOrPop =>
    let (v, stack) ← pop frame.stack
    return if ← Run.truthy v then goOn stack else goTo operand frame.stack
  | .jumpIfTrueOrPop =>
    let (v, stack) ← pop frame.stack
    return if ← Run.truthy v then goTo operand frame.stack else goOn stack
  | .jumpTable =>
    match chunk.tables[operand]? with
    | some table =>
      let (v, stack) ← pop frame.stack
      return goTo (table.lookup v) stack
    | none => Run.stop .badTable
  | .ret =>
    let (v, _) ← pop frame.stack
    return .returned v
  | .invalidAction =>
    let (pair, _) ← pop frame.stack
    throw (.error (invalidAction (← get) pair))

def step (call : Caller) (closure : Closure) (chunk : Chunk) (frame : Frame) : Run Progress := do
  if (chunk.code.size : Int) ≤ frame.offset then Run.fail (.codeEnd closure.name)
  match byteAt chunk.code frame.offset with
  | none => Run.stop .badOffset
  | some code =>
    match Opcode.ofCode? code with
    | none => Run.fail (.unknownOpcode code.toNat frame.offset)
    | some op =>
      match operandAt chunk.code (frame.offset + 1) op.width with
      | none => Run.stop .truncatedCode
      | some operand =>
        execute call closure chunk op operand
          { frame with offset := frame.offset + 1 + op.width }

end Machine

end ExprBackend
