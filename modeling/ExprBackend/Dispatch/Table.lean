import ExprBackend.Code.Expression

/-! # Action tables

A dispatch loop carries out actions that are chosen by number. The table numbers
them from one in the order of their registration. An action with the signature
of a registered one has its number; signatures are found by a hash, and actions
whose hashes collide are told apart by their signatures.
-/

namespace ExprBackend

structure ActionTable where
  actions : Array Node := #[]
  /-- The numbers of the actions by the hash of their signature. -/
  index : List (UInt64 × List Nat) := []

namespace ActionTable

def size (t : ActionTable) : Nat := t.actions.size

def action? (t : ActionTable) (id : Int) : Option Node :=
  if 1 ≤ id then t.actions[(id - 1).toNat]? else none

def candidates (t : ActionTable) (hash : UInt64) : List Nat := (t.index.lookup hash).getD []

def indexed (hash : UInt64) (id : Nat) : List (UInt64 × List Nat) → List (UInt64 × List Nat)
  | [] => [(hash, [id])]
  | (h, ids) :: rest =>
    if h == hash then (h, ids ++ [id]) :: rest else (h, ids) :: indexed hash id rest

def find? (hash : TextHash) (t : ActionTable) (signature : Text) : Option Nat :=
  (t.candidates (hash signature)).find? fun id =>
    match t.action? id with
    | some action => action.signature == signature
    | none => false

def push (hash : TextHash) (t : ActionTable) (action : Node) : ActionTable :=
  { actions := t.actions.push action
    index := indexed (hash action.signature) (t.actions.size + 1) t.index }

/-- Emits an action into a buffer of its own, to see that it leaves one value or goes on by
itself. -/
def check (action : Node) : Except Failure Unit × Array Event :=
  let emission : Emit Unit := do
    action.emitInto
    let c ← get
    if c.reachable ∧ c.depth ≠ 1 then throw (.compile (.actionDepth action.signature c.depth))
  let code := ((Code.create "dispatch.check" []).declare actionName).2
  let code := (code.declare argumentName).2
  let (result, code) := emission (fun _ _ => false) code
  (result, code.events)

def registerWith (hash : TextHash) (t : ActionTable) (action : Option Node) :
    Except Failure Nat × ActionTable × Array Event :=
  match action with
  | none => (.error (.compile .noAction), t, #[])
  | some action =>
    match t.find? hash action.signature with
    | some id => (.ok id, t, #[])
    | none =>
      match check action with
      | (.error failure, events) => (.error failure, t, events)
      | (.ok (), events) =>
        let t := t.push hash action
        (.ok t.size, t, events.push (.registered t.size action.signature))

def register (t : ActionTable) (action : Option Node) :
    Except Failure Nat × ActionTable × Array Event :=
  t.registerWith fnv1a action

/-- The names whose values can change between two passes through the loop: the pair being
dispatched, and all that an action gives a value to. -/
def volatileNames (t : ActionTable) : List Text :=
  let stored := t.actions.toList.flatMap fun action =>
    action.subexpressions.filterMap fun
      | .store name _ => some name
      | _ => none
  [actionName, argumentName] ++ stored

end ActionTable

end ExprBackend
