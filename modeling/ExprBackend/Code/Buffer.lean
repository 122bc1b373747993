import ExprBackend.Bytecode.Listing
import ExprBackend.Node.Basic
import ExprBackend.Text.Hash

/-! # Code buffers

A buffer collects instructions whose jumps go to labels. It keeps track of the
height that the operand stack has after each instruction, and of whether the
next instruction can be reached at all.
-/

namespace ExprBackend

abbrev Label := Int

/-- Stands for no label in a jump table. -/
def Label.none : Label := -1

/-- An instruction in a buffer. The operand of a jump is a label. -/
structure Instr where
  op : Opcode
  operand : Int
  deriving DecidableEq

/-- A height of the operand stack, kept as a signed word of 64 bits. -/
def height (n : Int) : Int := n.bmod 18446744073709551616

structure LabelInfo where
  /-- The place in the body, once the label is placed. -/
  position : Option Nat := none
  /-- The height of the stack at the label; it is not known as long as it is negative. -/
  depth : Int := -1
  deriving DecidableEq

structure TableSpec where
  targets : List Label
  default : Label
  deriving DecidableEq

/-- What can take over the emission of an expression. -/
inductive Interceptor where
  | cache (id : Nat)
  /-- Replaces expressions of one signature by a value. -/
  | replacement (signature : Text) (value : Value)
  deriving DecidableEq

structure Region where
  /-- The number of the region, in the order in which caches were first used in the buffer. -/
  ordinal : Int
  /-- Handles the expressions that the cache leaves alone. -/
  next : Option Interceptor := none
  /-- The names whose value can change during a call. -/
  volatile : List Text := []
  /-- Answers given so far to the question whether an expression depends on a volatile name, by
  signature. -/
  depends : List (HashedText × Bool) := []
  deriving DecidableEq

inductive Scratch where
  | value (v : Value)
  | count (n : Int)
  deriving DecidableEq

/-- The signature of an expression, found when it is first asked for. -/
abbrev LazySignature := Thunk HashedText

def Node.lazySignature (n : Node) : LazySignature := Thunk.mk fun _ => .ofText n.signature

structure Observation where
  /-- The expression that was being emitted around it. -/
  parent : Option LazySignature
  child : Node
  net : Int
  reachable : Bool

inductive Event where
  | emitted (buffer : Text) (node : Node) (net : Int) (reachable : Bool)
  | assembled (buffer : Text) (bytes constants : Nat) (maxStack : Int)
  | marked (signature : Text)
  | cached (buffer key : Text)
  | registered (id : Nat) (signature : Text)
  | generated (name : Text) (chunk : Chunk)

def Event.text (h : Heap) : Event → Text
  | .emitted buffer node net reachable =>
    "[Expr " ++ buffer ++ "] " ++ node.signature ++ " net=" ++ Text.ofInt net ++ " reachable="
      ++ Text.ofBool reachable ++ "\n"
  | .assembled buffer bytes constants maxStack =>
    "[Assemble " ++ buffer ++ "] " ++ Text.ofNat bytes ++ " bytes, " ++ Text.ofNat constants
      ++ " constants, max stack " ++ Text.ofInt maxStack ++ "\n"
  | .marked signature => "[CSE] mark " ++ signature ++ "\n"
  | .cached buffer key => "[CSE " ++ buffer ++ "] emit cached " ++ key ++ "\n"
  | .registered id signature =>
    "[Dispatch] register #" ++ Text.ofNat id ++ " " ++ signature ++ "\n"
  | .generated name chunk =>
    match Listing.ofChunk .plain h name chunk with
    | .ok listing => listing
    | .error _ => []

structure Code where
  name : Text
  paramCount : Nat
  chunk : Chunk := {}
  locals : List Text := []
  body : Array Instr := #[]
  /-- Instructions that go before all others. -/
  prologue : Array Instr := #[]
  inPrologue : Bool := false
  labels : Array LabelInfo := #[]
  namedLabels : List (Text × Label) := []
  tables : List TableSpec := []
  depth : Int := 0
  maxDepth : Int := 0
  reachable : Bool := true
  interceptor : Option Interceptor := none
  observing : Bool := false
  observations : Array Observation := #[]
  /-- The expressions that are being emitted, the innermost first. -/
  emitting : List LazySignature := []
  scratch : List (Text × Scratch) := []
  regions : List (Nat × Region) := []
  events : Array Event := #[]

namespace Code

def slot? (c : Code) (name : Text) : Option Nat := c.locals.findIdx? (· == name)

/-- The slot of a local, which is declared if there is none of that name. -/
def declare (c : Code) (name : Text) : Nat × Code :=
  match c.slot? name with
  | some slot => (slot, c)
  | none => (c.locals.length, { c with locals := c.locals ++ [name] })

/-- Whether no name occurs twice. Names are compared only with those that share a bucket. -/
def distinct (names : List Text) : Bool :=
  (names.foldl (fun buckets name => buckets.modify ((fnv1a name).toNat % 4096) (name :: ·))
    (Array.replicate 4096 [])).all fun bucket => bucket.all fun name => bucket.count name == 1

def declareAll (c : Code) (names : List Text) : Code :=
  names.foldl (fun c name => (c.declare name).2) c

/-- An empty buffer for a function with the given parameters. Many of them are not declared one by
one if they are all different. -/
def create (name : Text) (params : List Text) : Code :=
  let c : Code := { name, paramCount := params.length }
  if params.length < 1000 then c.declareAll params
  else if distinct params then { c with locals := params }
  else c.declareAll params

/-- The sizes of the blocks that hold slots. A full block is exchanged for the next larger one. -/
def blocks : List Nat :=
  [0, 1, 2, 4, 8, 16, 32, 71, 143, 303, 591, 1023, 1535, 2560, 3584, 5120, 6656, 8704, 11264,
    14336, 18432, 23552, 29696, 37376, 47104, 59392, 74752, 93696, 117760, 147456, 184832,
    231424]

/-- How many slots there is room for when so many are declared. -/
def room (slots : Nat) : Nat := (blocks.find? (slots ≤ ·)).getD slots

/-- The names of the parameters. They are the names of the first slots, as many as parameters were
declared; if a name was declared twice, slots that follow are taken in, as far as there is room. -/
def params? (c : Code) : Option (List Text) :=
  if c.paramCount ≤ room c.locals.length then
    some ((c.locals ++ List.replicate (c.paramCount - c.locals.length) []).take c.paramCount)
  else none

def label? (c : Code) (l : Label) : Option LabelInfo := if 0 ≤ l then c.labels[l.toNat]? else none

def setScratch (c : Code) (key : Text) (s : Scratch) : Code :=
  { c with scratch := (key, s) :: c.scratch.filter (·.1 != key) }

end Code

end ExprBackend
