import ExprBackend.Code.Compile
import ExprBackend.Dispatch.Table

/-! # Generated interpreters

A decision tree is data: pairs of the number of an action and an argument. A
generated function walks such a tree. It has code for each registered action
once, and goes on from pair to pair in a loop that jumps to the code of the
current action. Action zero ends the walk by calling its argument with the
current values of the parameters.
-/

namespace ExprBackend

def reservedNames : List Text := [actionName, argumentName, cacheSlotName]

namespace Emit

def newLabels : Nat → Emit (List Label)
  | 0 => return []
  | n + 1 => do
    let l ← newLabel
    return l :: (← newLabels n)

def loadSlots (first : Nat) : (count : Nat) → Emit Unit
  | 0 => pure ()
  | count + 1 => do
    loadLocal first
    loadSlots (first + 1) count

/-- The code of actions at their labels. An action that leaves a pair goes on with it. -/
def actions : List Label → List Node → Emit Unit
  | l :: labels, action :: rest => do
    mark l
    action.emitInto
    if (← get).reachable then transfer
    actions labels rest
  | _, _ => pure ()

def interpreter (root : Value) (paramCount : Nat) (cache : Option Nat) (table : ActionTable) :
    Emit Program := do
  let action ← localSlot actionName
  let argument ← localSlot argumentName
  if let some id := cache then attach id table.volatileNames
  loadConst root
  unpack 2
  storeLocal action
  storeLocal argument
  mark (← namedLabel loopLabel)
  let exit ← newLabel
  let targets ← newLabels table.size
  let invalid ← newLabel
  loadLocal action
  jumpTable (exit :: targets) invalid
  mark exit
  loadLocal argument
  loadSlots 0 paramCount
  call paramCount
  ret
  actions targets table.actions.toList
  mark invalid
  loadLocal action
  loadLocal argument
  buildTuple 2
  invalidAction
  let p ← program
  report (.generated p.name p.chunk)
  return p

end Emit

def ActionTable.generateProgram (h : Heap) (marks : Marks) (cache : Option Nat) (t : ActionTable)
    (root : Value) (name : Text) (params : List Text) : Except Failure Program × Array Event :=
  if ((h.items? root).map List.length) ≠ some 2 then
    (.error (.compile (.rootPair (h.text root))), #[])
  else
    match params.find? (reservedNames.contains ·) with
    | some param => (.error (.compile (.reservedParameter param)), #[])
    | none =>
      let (result, code) :=
        Emit.interpreter root params.length cache t marks (Code.create name params)
      (result, code.events)

def ActionTable.generate (marks : Marks) (cache : Option Nat) (t : ActionTable) (root : Value)
    (name : Text) (params : List Text) (globals : Bindings) : Run Value := do
  match (t.generateProgram (← get) marks cache root name params).1 with
  | .ok program => program.install globals
  | .error failure => throw failure

end ExprBackend
