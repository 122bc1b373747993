import ExprBackend.Code.Expression

/-! # Assembling code

Assembly replaces labels by offsets and encodes the instructions, those of the
prologue first. A chunk belongs to its buffer: what is assembled replaces its
code, also when assembly stops at a label that was never placed.
-/

namespace ExprBackend

def Instr.size (i : Instr) : Nat := 1 + i.op.width

namespace Code

def sizeOfAll (instrs : Array Instr) : Nat := instrs.foldl (fun n i => n + i.size) 0

/-- The offsets of the instructions of the body, and the offset behind the last. -/
def offsets (c : Code) : Array Nat :=
  (c.body.foldl (fun (found, offset) i => (found.push (offset + i.size), offset + i.size))
    (#[sizeOfAll c.prologue], sizeOfAll c.prologue)).1

def size (c : Code) : Nat := sizeOfAll c.prologue + sizeOfAll c.body

def labelOffset (c : Code) (offsets : Array Nat) (l : Label) : Except Failure Int :=
  match c.label? l with
  | none => .error (.fault .unknownLabel)
  | some info =>
    match info.position with
    | none => .error (.compile (.code c.name (.neverPlaced l)))
    | some position => .ok (offsets[position]?.getD 0 : Nat)

end Code

/-- The offsets of the targets of a jump table; no label gives a negative one. -/
def resolveTargets (resolve : Label → Except Failure Int) : List Label → Except Failure (List Int)
  | [] => .ok []
  | l :: rest => do
    let target ← if l = Label.none then .ok (-1) else resolve l
    return target :: (← resolveTargets resolve rest)

def TableSpec.resolve (resolve : Label → Except Failure Int) (t : TableSpec) :
    Except Failure JumpTable := do
  let targets ← resolveTargets resolve t.targets
  return ⟨targets, ← resolve t.default⟩

/-- The jump tables up to the first that cannot be resolved. -/
def resolveTables (resolve : Label → Except Failure Int) :
    List TableSpec → List JumpTable × Except Failure Unit
  | [] => ([], .ok ())
  | t :: rest =>
    match t.resolve resolve with
    | .error failure => ([], .error failure)
    | .ok table =>
      let (tables, result) := resolveTables resolve rest
      (table :: tables, result)

def Instr.resolved (resolve : Label → Except Failure Int) (i : Instr) : Except Failure Int :=
  if i.op.isJump then resolve i.operand else .ok i.operand

def operandBytes (width : Nat) (operand : Int) : List UInt8 :=
  match width with
  | 0 => []
  | 1 => [(operand % 256).toNat.toUInt8]
  | _ =>
    let (high, low) := Chunk.wordBytes operand
    [high, low]

/-- Encodes instructions up to the first whose label has no offset. Of that one only the operation
is written. -/
def encodeAll (resolve : Label → Except Failure Int) :
    List Instr → Array UInt8 → Array UInt8 × Except Failure Unit
  | [], code => (code, .ok ())
  | i :: rest, code =>
    match i.resolved resolve with
    | .error failure => (code.push i.op.code, .error failure)
    | .ok operand =>
      encodeAll resolve rest
        ((code.push i.op.code).append (operandBytes i.op.width operand).toArray)

structure Program where
  name : Text
  params : List Text
  chunk : Chunk
  deriving DecidableEq

namespace Emit

def ofExcept {α : Type} : Except Failure α → Emit α
  | .ok a => pure a
  | .error failure => throw failure

def modifyChunk (f : Chunk → Chunk) : Emit Unit := modify fun c => { c with chunk := f c.chunk }

def assemble : Emit Chunk := do
  let c ← get
  if 65535 < c.size then fail (.tooLarge c.size)
  let resolve := c.labelOffset c.offsets
  let (tables, result) := resolveTables resolve c.tables
  modifyChunk fun chunk => { chunk with code := #[], tables }
  ofExcept result
  let (code, result) := encodeAll resolve (c.prologue.toList ++ c.body.toList) #[]
  modifyChunk fun chunk => { chunk with code }
  ofExcept result
  modifyChunk fun chunk => { chunk with localNames := c.locals, maxStack := c.maxDepth }
  let chunk := (← get).chunk
  report (.assembled c.name chunk.code.size chunk.constants.size chunk.maxStack)
  return chunk

def params : Emit (List Text) := do
  match (← get).params? with
  | some names => pure names
  | none => stop .undeclaredParameter

def program : Emit Program := do
  let chunk ← assemble
  return { name := (← get).name, params := ← params, chunk }

end Emit

def Program.install (p : Program) (globals : Bindings) : Run Value := do
  let place ← modifyGet fun h => h.allocChunk p.chunk
  Run.newFunction (.compiled ⟨p.name, p.params, place, globals⟩)

end ExprBackend
