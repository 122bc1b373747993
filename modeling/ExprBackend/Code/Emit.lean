import ExprBackend.Code.Buffer
import ExprBackend.Heap.Run

/-! # Emitting instructions

Every instruction records by how much it changes the height of the operand
stack. A label has one height: all jumps to it and the code that runs into it
have to agree. After an unconditional transfer nothing is reachable until a
label is placed that something jumps to.
-/

namespace ExprBackend

/-- Which signatures a cache, given by its number, has marked. -/
abbrev Marks := Nat → Text → Bool

/-- Emission into a buffer. What was emitted before a failure stays in the buffer. -/
abbrev Emit := ReaderT Marks (ExceptT Failure (StateM Code))

namespace Emit

def fail {α : Type} (cause : CodeError) : Emit α := do
  throw (.compile (.code (← get).name cause))

def stop {α : Type} (f : Fault) : Emit α := throw (.fault f)

def report (event : Event) : Emit Unit := modify fun c => { c with events := c.events.push event }

def append (op : Opcode) (operand : Int) (change : Int) : Emit Unit :=
  modify fun c =>
    { c with
      body := c.body.push ⟨op, operand⟩
      depth := height (c.depth + change)
      maxDepth := max c.maxDepth (height (c.depth + change)) }

def addConstant (v : Value) : Emit Nat := fun _ c =>
  let (index, chunk) := c.chunk.addConstant v
  (index.mapError .fault, { c with chunk })

def localSlot (name : Text) : Emit Nat := modifyGet fun c => c.declare name

def loadConst (v : Value) : Emit Unit := do append .loadConst (← addConstant v) 1

def loadNone : Emit Unit := append .loadNone 0 1

def loadLocal (slot : Int) : Emit Unit := append .loadLocal slot 1

/-- Pushes the value of a name: of a local, if there is one of that name, or else of a global. -/
def loadName (name : Text) : Emit Unit := do
  match (← get).slot? name with
  | some slot => loadLocal slot
  | none => append .loadGlobal (← addConstant (.str name)) 1

def storeLocal (slot : Int) : Emit Unit := append .storeLocal slot (-1)

/-- Pops into a local, which is declared if there is none of that name. -/
def storeName (name : Text) : Emit Unit := do storeLocal (← localSlot name)

def pop : Emit Unit := append .pop 0 (-1)

def dup : Emit Unit := append .dup 0 1

def rot2 : Emit Unit := append .rot2 0 0

def rot3 : Emit Unit := append .rot3 0 0

def unary (code : UInt8) : Emit Unit := append .unary code.toNat 0

def binary (code : UInt8) : Emit Unit := append .binary code.toNat (-1)

def compare (code : UInt8) : Emit Unit := append .compare code.toNat (-1)

def getIndex : Emit Unit := append .getIndex 0 (-1)

def storeIndex : Emit Unit := append .storeIndex 0 (-3)

def buildSlice : Emit Unit := append .buildSlice 0 (-2)

def getAttr (name : Text) : Emit Unit := do append .getAttr (← addConstant (.str name)) 0

def loadMethod (name : Text) : Emit Unit := do append .loadMethod (← addConstant (.str name)) 1

def buildList (count : Int) : Emit Unit := append .buildList count (1 - count)

def buildTuple (count : Int) : Emit Unit := append .buildTuple count (1 - count)

def buildDict (count : Int) : Emit Unit := append .buildDict count (1 - 2 * count)

def listExtend : Emit Unit := append .listExtend 0 (-1)

def dictMerge : Emit Unit := append .dictMerge 0 (-1)

def unpack (count : Int) : Emit Unit := append .unpack count (count - 1)

def call (count : Int) : Emit Unit := append .call count (-count)

def callMethod (count : Int) : Emit Unit := append .callMethod count (-count - 1)

def callEx (method : Bool) : Emit Unit :=
  if method then append .callEx 1 (-3) else append .callEx 0 (-2)

def newLabel : Emit Label :=
  modifyGet fun c => ((c.labels.size : Int), { c with labels := c.labels.push {} })

/-- The label of a name, which is new when the name is first used. -/
def namedLabel (name : Text) : Emit Label := do
  match (← get).namedLabels.lookup name with
  | some l => pure l
  | none =>
    let l ← newLabel
    modify fun c => { c with namedLabels := (name, l) :: c.namedLabels }
    pure l

def labelInfo (l : Label) : Emit LabelInfo := do
  match (← get).label? l with
  | some info => pure info
  | none => stop .unknownLabel

def setLabel (l : Label) (info : LabelInfo) : Emit Unit :=
  modify fun c => { c with labels := c.labels.setIfInBounds l.toNat info }

/-- Places a label. Code becomes reachable there if a jump to the label is known. -/
def mark (l : Label) : Emit Unit := do
  if (← get).inPrologue then fail .prologueLabel
  let info ← labelInfo l
  if info.position.isSome then fail (.placedTwice l)
  let c ← get
  let placed := { info with position := some c.body.size }
  setLabel l placed
  if c.reachable then
    if 0 ≤ info.depth ∧ info.depth ≠ c.depth then fail (.labelDepth l c.depth info.depth)
    setLabel l { placed with depth := c.depth }
  else if 0 ≤ info.depth then
    modify fun c => { c with depth := info.depth, reachable := true }

/-- Records the height of the stack with which a jump reaches a label. -/
def branchTo (l : Label) (depth : Int) : Emit Unit := do
  if (← get).reachable then
    let info ← labelInfo l
    if info.position.isSome then
      if info.depth < 0 then fail (.deadBackJump l)
      if info.depth ≠ depth then fail (.backJumpDepth l depth info.depth)
    else
      if 0 ≤ info.depth ∧ info.depth ≠ depth then fail (.labelDepth l depth info.depth)
      setLabel l { info with depth }

def endReach : Emit Unit := modify fun c => { c with reachable := false }

def jump (l : Label) : Emit Unit := do
  branchTo l (← get).depth
  append .jump l 0
  endReach

/-- Pops, and goes on at a label if the value is as the operation asks. -/
def popJump (op : Opcode) (l : Label) : Emit Unit := do
  append op l (-1)
  branchTo l (← get).depth

def jumpIfFalse (l : Label) : Emit Unit := popJump .jumpIfFalse l

def jumpIfTrue (l : Label) : Emit Unit := popJump .jumpIfTrue l

/-- Goes on at a label if the top is as the operation asks, and pops it otherwise. -/
def jumpOrPop (op : Opcode) (l : Label) : Emit Unit := do
  branchTo l (← get).depth
  append op l (-1)

def jumpIfFalseOrPop (l : Label) : Emit Unit := jumpOrPop .jumpIfFalseOrPop l

def jumpIfTrueOrPop (l : Label) : Emit Unit := jumpOrPop .jumpIfTrueOrPop l

/-- Records the height of the stack with which a jump table reaches its labels. -/
def branchToAll (depth : Int) : List Label → Emit Unit
  | [] => pure ()
  | l :: rest => do
    if l ≠ Label.none then branchTo l depth
    branchToAll depth rest

/-- Pops a number and goes on at the label with that number, or at the default. -/
def jumpTable (targets : List Label) (default : Label) : Emit Unit := do
  if (← get).inPrologue then fail .prologueTable
  append .jumpTable (← get).tables.length (-1)
  branchToAll (← get).depth targets
  branchTo default (← get).depth
  modify fun c => { c with tables := c.tables ++ [⟨targets, default⟩] }
  endReach

def ret : Emit Unit := do
  append .ret 0 (-1)
  endReach

def invalidAction : Emit Unit := do
  append .invalidAction 0 (-1)
  endReach

/-- Emits instructions that go before all others. They must leave the stack as it is, and cannot
place labels. -/
def prologue (emission : Emit Unit) : Emit Unit := fun marks c =>
  if c.inPrologue then emission marks c
  else
    let (result, inner) :=
      emission marks
        { c with body := c.prologue, depth := 0, reachable := true, inPrologue := true }
    let outer := { inner with
      prologue := inner.body
      body := c.body
      depth := c.depth
      reachable := c.reachable
      inPrologue := false }
    match result with
    | .error failure => (.error failure, outer)
    | .ok () =>
      if inner.depth = 0 then (.ok (), outer)
      else (.error (.compile (.code c.name (.prologueDepth inner.depth))), outer)

end Emit

end ExprBackend
