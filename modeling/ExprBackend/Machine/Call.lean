import ExprBackend.Machine.Step

/-! # Calls

A call binds its arguments to the parameters and runs the code step by step until
it returns. Code can loop and call itself without end, so a call is given a
limit: on the steps of each activation, and on the depth of calls within calls.
-/

namespace ExprBackend

namespace Machine

/-- The largest operand stack that can be set aside for an activation. -/
def largestStack : Int := Nat.pow 2 48 / 56

/-- Gives keyword arguments to the parameters they name; a parameter takes one value only. -/
def bindKeywords (function : Text) (params : List Text) :
    List Keyword → List (Option Value) → Except RuntimeError (List (Option Value))
  | [], slots => .ok slots
  | keyword :: rest, slots =>
    match params.findIdx? (· == keyword.name) with
    | none => .error (.unexpectedKeyword function keyword.name)
    | some place =>
      match slots[place]? with
      | some none => bindKeywords function params rest (slots.set place (some keyword.value))
      | _ => .error (.repeatedArgument function keyword.name)

def boundValues (function : Text) :
    (params : List Text) → List (Option Value) → Except RuntimeError (List Value)
  | _ :: params, some v :: slots => (boundValues function params slots).map (v :: ·)
  | param :: _, _ => .error (.missingArgument function param)
  | [], _ => .ok []

def bindArguments (function : Text) (params : List Text) (args : List Value)
    (keywords : List Keyword) : Except RuntimeError (List Value) := do
  if params.length < args.length then
    throw (.tooManyArguments function params.length args.length)
  let slots := args.map some ++ List.replicate (params.length - args.length) none
  boundValues function params (← bindKeywords function params keywords slots)

/-- The frame in which an activation starts: the parameters have their values, all other locals
are `none`. -/
def startFrame (chunk : Chunk) (values : List Value) : Frame :=
  let unset := List.replicate (chunk.localNames.length - values.length) Value.none
  { locals := (values ++ unset).toArray
    stack := []
    offset := 0 }

/-- Steps on until the activation returns, at most the given number of times. -/
def loop (step : Frame → Run Progress) : (limit : Nat) → Frame → Run Value
  | 0, _ => throw .exhausted
  | limit + 1, frame => do
    match ← step frame with
    | .running next => loop step limit next
    | .returned v => pure v

def activate (call : Caller) (limit : Nat) (closure : Closure) (args : List Value)
    (keywords : List Keyword) : Run Value := do
  let values ← Run.ofExcept (bindArguments closure.name closure.params args keywords)
  let chunk := (← get).chunk closure.chunk
  if chunk.maxStack < 0 ∨ largestStack < chunk.maxStack then Run.stop .badStackSize
  loop (step call closure chunk) limit (startFrame chunk values)

/-- Sets the keys of a new dictionary to the values of keyword arguments. -/
def keywordDict (keywords : List Keyword) : Run Value :=
  Run.buildDict (keywords.flatMap fun keyword => [.str keyword.name, keyword.value])

def runBuiltin (call : Caller) (operation : Builtin) (args : List Value)
    (keywords : List Keyword) : Run Value := do
  match operation with
  | .echo => return args.headD .none
  | .record =>
    let v := args.headD .none
    modify fun h => { h with journal := v :: h.journal }
    return v
  | .tuple => Run.newTuple args
  | .collect =>
    let positional ← Run.newTuple args
    let named ← keywordDict keywords
    Run.newTuple [positional, named]
  | .fail => Run.fail .callbackFailed
  | .apply =>
    match args with
    | callee :: rest => call callee rest keywords
    | [] => Run.fail .applyArguments
  | .setItem =>
    match args with
    | [container, key, value] =>
      Run.setItem container key value
      return container
    | _ => Run.fail .setItemArguments

end Machine

def callWithin : (limit : Nat) → Caller
  | 0, _, _, _ => throw .exhausted
  | limit + 1, callee, args, keywords => do
    match callee with
    | .function r =>
      match (← get).function? r with
      | some (.builtin _ operation) => Machine.runBuiltin (callWithin limit) operation args keywords
      | some (.bound _ receiver method) => callWithin limit method (receiver :: args) keywords
      | some (.compiled closure) => Machine.activate (callWithin limit) limit closure args keywords
      | none => Run.stop .danglingFunction
    | v => Run.fail (.notCallable v.kind)

end ExprBackend
