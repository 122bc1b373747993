import ExprBackend.Operator.Comparison
import ExprBackend.Operator.Slicing

/-! # Subscripts

Reading and writing items. Texts are sequences of characters; a byte that
belongs to no character is read as the replacement character.
-/

namespace ExprBackend.Run

/-- The place in a sequence that an index means; negative indices count from the end. -/
def place? (index : Int64) (length : Nat) : Option Nat :=
  let i := if index < 0 then index + Int64.ofNat length else index
  if i < 0 ∨ i ≥ Int64.ofNat length then none else some i.toInt.toNat

def indexOf (base index : Value) : Run Int64 :=
  match index with
  | .int i => pure i
  | .bool b => pure (if b then 1 else 0)
  | v => fail (.indexKind base.kind v.kind)

def slice (base start stop step : Value) : Run Value := do
  match base with
  | .list r => newList (← ofExcept (Slicing.items start stop step ((← get).list r)))
  | .tuple r => newTuple (← ofExcept (Slicing.items start stop step ((← get).tuple r)))
  | .str s => return .str (Text.encode (← ofExcept (Slicing.items start stop step (Text.chars s))))
  | v => fail (.notSliceable v.kind)

/-- The item at an index of a sequence, or the failure that there is none. -/
def itemAt {α : Type} (index : Int64) (items : Array α) (missing : RuntimeError) : Run α :=
  match (place? index items.size).bind (items[·]?) with
  | some item => pure item
  | none => fail missing

/-- The item of a value at an index; a slice selects several. -/
def index (base index : Value) : Run Value := do
  match index, base with
  | .slice r, base =>
    let (start, stop, step) := (← get).slice r
    slice base start stop step
  | index, .str s =>
    return .str (Text.encodeChar (← itemAt (← indexOf base index) (Text.chars s).toArray
      .textIndexRange))
  | index, .list r => itemAt (← indexOf base index) ((← get).listItems r) (.indexRange .list)
  | index, .tuple r => itemAt (← indexOf base index) ((← get).tuple r).toArray (.indexRange .tuple)
  | index, .dict r =>
    match ← dictGet? r index with
    | some v => pure v
    | none => fail (.missingKey ((← get).text index))
  | _, v => fail (.notSubscriptable v.kind)

def setItem (container key value : Value) : Run Unit := do
  match container, key with
  | .dict r, key => dictSet r key value
  | .list r, .int i =>
    match place? i ((← get).listItems r).size with
    | some place => modify fun h => h.modifyList r (·.setIfInBounds place value)
    | none => fail .assignmentRange
  | .list _, key => fail (.indexKind .list key.kind)
  | v, _ => fail (.notAssignable v.kind)

end ExprBackend.Run
