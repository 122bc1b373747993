import ExprBackend.Heap.Run
import ExprBackend.Operator.Kind
import ExprBackend.View.Order

/-! # Comparisons

Equality, order, identity and membership of values.
-/

namespace ExprBackend.Run

/-- The canonical key of a value used as a dictionary key. -/
def dictKey (key : Value) : Run Text := do
  match (← get).key? key with
  | some hash => pure hash
  | none => fail (.unhashable key.kind)

def dictGet? (r : Ref) (key : Value) : Run (Option Value) := do
  let hash ← dictKey key
  return ((← get).dict r).find? hash

def dictSet (r : Ref) (key value : Value) : Run Unit := do
  let hash ← dictKey key
  modify fun h => h.setCell r (.dict ((h.dict r).set hash key value))

/-- The result of a comparison. One that has no end goes on for as long as it is allowed to. -/
def ofComparison {α : Type} : Option α → Run α
  | some a => pure a
  | none => throw .exhausted

/-- Whether an item is in a container: a part of a text, an item of a sequence, a key of a
dictionary. -/
def contains (container item : Value) : Run Bool := do
  let h ← get
  match container, item with
  | .str whole, .str part => return Text.occursIn part whole
  | .list r, item => ofComparison ((h.list r).anyM fun v => h.equal v item)
  | .tuple r, item => ofComparison ((h.tuple r).anyM fun v => h.equal v item)
  | .dict r, item => return (← dictGet? r item).isSome
  | container, item => fail (.operands CompareOp.isIn.symbol [item.kind, container.kind])

def compareOrder (symbol : Text) (test : Ordering → Bool) (a b : Value) : Run Value := do
  match ← ofComparison ((← get).order a b) with
  | .ok o => return .bool (test o)
  | .error _ => fail (.operands symbol [a.kind, b.kind])

def compare (op : CompareOp) (a b : Value) : Run Value := do
  match op with
  | .eq => return .bool (← ofComparison ((← get).equal a b))
  | .ne => return .bool !(← ofComparison ((← get).equal a b))
  | .is => return .bool (a.identical b)
  | .isNot => return .bool !(a.identical b)
  | .isIn => return .bool (← contains b a)
  | .notIn => return .bool !(← contains b a)
  | .lt => compareOrder op.symbol Ordering.isLT a b
  | .le => compareOrder op.symbol Ordering.isLE a b
  | .gt => compareOrder op.symbol Ordering.isGT a b
  | .ge => compareOrder op.symbol Ordering.isGE a b

/-- Applies the comparison with a number. A number that no comparison has tests ordered values as
`>=` does. -/
def compareCode (code : UInt8) (a b : Value) : Run Value := do
  match CompareOp.ofCode? code with
  | some op => compare op a b
  | none =>
    match ← ofComparison ((← get).order a b) with
    | .ok o => return .bool o.isGE
    | .error _ => stop .unknownOperator

end ExprBackend.Run
