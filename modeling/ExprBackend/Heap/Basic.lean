import ExprBackend.Bytecode.Chunk
import ExprBackend.Heap.Dict
import ExprBackend.Value.Bindings

/-! # The heap

Everything that has an identity or changes lives in the heap: lists, tuples,
dictionaries, slices, functions and objects in cells, and code in chunks, which
functions share. The heap also keeps the journal, the values that running code
has put on record.
-/

namespace ExprBackend

/-- The functions that are not made of code. -/
inductive Builtin where
  /-- Gives back its first argument. -/
  | echo
  /-- Gives back its first argument and puts it on record. -/
  | record
  | tuple
  /-- Gives its arguments as a tuple and its keywords as a dictionary. -/
  | collect
  | fail
  | apply
  | setItem
  deriving DecidableEq

structure Closure where
  name : Text
  params : List Text
  chunk : Ref
  globals : Bindings
  deriving DecidableEq

def Closure.summary (c : Closure) : Text :=
  "<function " ++ c.name ++ "(" ++ Text.ofNat c.params.length ++ " params)>"

inductive Function where
  | builtin (name : Text) (operation : Builtin)
  /-- A method of an object, which passes the object as first argument. -/
  | bound (name : Text) (receiver callee : Value)
  | compiled (closure : Closure)
  deriving DecidableEq

def Function.name : Function → Text
  | .builtin name _ => name
  | .bound name _ _ => name
  | .compiled closure => closure.name

/-- A named bag of attributes and methods. -/
structure Object where
  name : Text
  attributes : Bindings
  methods : Bindings
  deriving DecidableEq

inductive Cell where
  | list (items : Array Value)
  | tuple (items : List Value)
  | dict (entries : Dict)
  | slice (start stop step : Value)
  | function (f : Function)
  | object (o : Object)
  deriving DecidableEq

structure Heap where
  cells : Array Cell := #[]
  chunks : Array Chunk := #[]
  /-- The recorded values, the latest first. -/
  journal : List Value := []
  deriving DecidableEq

namespace Heap

def alloc (h : Heap) (cell : Cell) : Ref × Heap :=
  (h.cells.size, { h with cells := h.cells.push cell })

def setCell (h : Heap) (r : Ref) (cell : Cell) : Heap :=
  { h with cells := h.cells.setIfInBounds r cell }

def allocChunk (h : Heap) (chunk : Chunk) : Ref × Heap :=
  (h.chunks.size, { h with chunks := h.chunks.push chunk })

def setChunk (h : Heap) (r : Ref) (chunk : Chunk) : Heap :=
  { h with chunks := h.chunks.setIfInBounds r chunk }

def chunk (h : Heap) (r : Ref) : Chunk := h.chunks[r]?.getD {}

def listItems (h : Heap) (r : Ref) : Array Value :=
  match h.cells[r]? with
  | some (.list items) => items
  | _ => #[]

def list (h : Heap) (r : Ref) : List Value := (h.listItems r).toList

def modifyList (h : Heap) (r : Ref) (change : Array Value → Array Value) : Heap :=
  { h with
    cells := h.cells.modify r fun
      | .list items => .list (change items)
      | cell => cell }

def tuple (h : Heap) (r : Ref) : List Value :=
  match h.cells[r]? with
  | some (.tuple items) => items
  | _ => []

def dict (h : Heap) (r : Ref) : Dict :=
  match h.cells[r]? with
  | some (.dict d) => d
  | _ => .empty

def slice (h : Heap) (r : Ref) : Value × Value × Value :=
  match h.cells[r]? with
  | some (.slice start stop step) => (start, stop, step)
  | _ => (.none, .none, .none)

def function? (h : Heap) (r : Ref) : Option Function :=
  match h.cells[r]? with
  | some (.function f) => some f
  | _ => none

def functionName (h : Heap) (r : Ref) : Text := ((h.function? r).map Function.name).getD []

def object (h : Heap) (r : Ref) : Object :=
  match h.cells[r]? with
  | some (.object o) => o
  | _ => ⟨[], {}, {}⟩

def items? (h : Heap) : Value → Option (List Value)
  | .list r => some (h.list r)
  | .tuple r => some (h.tuple r)
  | _ => none

/-- The truth value of a value: `none`, zero, and everything empty count as false. -/
def truthy (h : Heap) : Value → Bool
  | .none | .noReceiver => false
  | .bool b => b
  | .int i => i != 0
  | .float f => f != 0
  | .str s => !s.isEmpty
  | .list r => !(h.listItems r).isEmpty
  | .tuple r => !(h.tuple r).isEmpty
  | .dict r => (h.dict r).size != 0
  | .slice _ | .function _ | .object _ => true

end Heap

end ExprBackend
