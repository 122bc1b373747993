import ExprBackend.Heap.Basic

/-! # Views

The view of a value is the value with its contents one level down. Text,
equality, order and canonical keys are defined on views, given the same function
for what a view contains; a walk down the heap then repeats them level by level
and looks no further than it has to.

A value that does not contain itself passes through every cell of the heap at
most once on the way down, so one level more than the heap has cells shows all of
it. Of texts and keys deeper levels, which only a value that contains itself has,
are cut off; a comparison that gets to them has no answer.
-/

namespace ExprBackend

/-- A value with its contents one level down. -/
inductive View where
  | none
  | bool (b : Bool)
  | int (i : Int64)
  | float (f : Float)
  | str (s : Text)
  | list (r : Ref) (items : List Value)
  | tuple (items : List Value)
  | dict (r : Ref) (entries : Dict)
  | slice (start stop step : Value)
  | function (r : Ref) (name : Text)
  | object (r : Ref) (name : Text)

def View.kind : View → Kind
  | .none => .none
  | .bool _ => .bool
  | .int _ => .int
  | .float _ => .float
  | .str _ => .str
  | .list _ _ => .list
  | .tuple _ => .tuple
  | .dict _ _ => .dict
  | .slice _ _ _ => .slice
  | .function _ _ => .function
  | .object _ _ => .object

def Heap.view (h : Heap) : Value → View
  | .none | .noReceiver => .none
  | .bool b => .bool b
  | .int i => .int i
  | .float f => .float f
  | .str s => .str s
  | .list r => .list r (h.list r)
  | .tuple r => .tuple (h.tuple r)
  | .dict r => .dict r (h.dict r)
  | .slice r =>
    let (start, stop, step) := h.slice r
    .slice start stop step
  | .function r => .function r (h.functionName r)
  | .object r => .object r (h.object r).name

/-- How many levels show all of a value that does not contain itself. -/
def Heap.levels (h : Heap) : Nat := h.cells.size + 1

end ExprBackend
