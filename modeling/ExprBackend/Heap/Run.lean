import ExprBackend.Error
import ExprBackend.Heap.Basic

/-! # Operations on the heap

An operation reads and changes the heap and gives a value or fails. What it has
done to the heap before it fails stays done.
-/

namespace ExprBackend

abbrev Run := ExceptT Failure (StateM Heap)

namespace Run

def fail {α : Type} (e : RuntimeError) : Run α := throw (.runtime e)

def stop {α : Type} (f : Fault) : Run α := throw (.fault f)

def ofExcept {α : Type} : Except RuntimeError α → Run α
  | .ok a => pure a
  | .error e => fail e

def alloc (cell : Cell) : Run Ref := modifyGet fun h => h.alloc cell

def newList (items : List Value) : Run Value := return .list (← alloc (.list items.toArray))

def newTuple (items : List Value) : Run Value := return .tuple (← alloc (.tuple items))

def newDict (d : Dict) : Run Value := return .dict (← alloc (.dict d))

def newSlice (start stop step : Value) : Run Value :=
  return .slice (← alloc (.slice start stop step))

def newFunction (f : Function) : Run Value := return .function (← alloc (.function f))

def newObject (o : Object) : Run Value := return .object (← alloc (.object o))

end Run

end ExprBackend
