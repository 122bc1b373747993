import ExprBackend.Machine.Step
import ExprBackend.Node.Basic

/-! # Evaluating expressions

An expression is evaluated in an environment of names, which it can change. The
calls it makes are left to a caller that is given from outside.
-/

namespace ExprBackend

structure EvalState where
  heap : Heap
  environment : Bindings

/-- Evaluation may fail; what it has changed before stays changed. -/
abbrev Eval := ExceptT Failure (StateM EvalState)

namespace Eval

def ofRun {α : Type} (action : Run α) : Eval α := fun s =>
  let (result, heap) := action s.heap
  (result, { s with heap })

def truthy (v : Value) : Eval Bool := return (← get).heap.truthy v

def name (name : Text) : Eval Value := do
  match (← get).environment.get? name with
  | some v => pure v
  | none => throw (.error (.unresolved name))

/-- The keywords with those of a spread dictionary, none of which may be there already. -/
def mergeKeywords (keywords spread : List Keyword) : Except RuntimeError (List Keyword) :=
  match spread.find? fun k => keywords.any fun other => other.name == k.name with
  | some k => .error (.repeatedKeyword k.name)
  | none => .ok (keywords ++ spread)

end Eval

namespace Node

mutual

def eval (call : Caller) : Node → Eval Value
  | .const v _ => return v
  | .var name => Eval.name name
  | .unary op operand => do
    let v ← eval call operand
    Eval.ofRun (Run.unary op v)
  | .binary op left right => do
    let a ← eval call left
    let b ← eval call right
    Eval.ofRun (Run.binary op a b)
  | .compare subject links => do
    let v ← eval call subject
    evalLinks call (.bool true) v links
  | .logical junction operands => evalOperands call junction operands
  | .cond test yes no => do
    let t ← eval call test
    if ← Eval.truthy t then eval call yes else eval call no
  | .collection kind elements => do
    let values ← evalAll call elements
    match kind with
    | .list => Eval.ofRun (Run.newList values)
    | .tuple => Eval.ofRun (Run.newTuple values)
    | .dict => Eval.ofRun (Run.buildDict values)
  | .subscript base index => do
    let b ← eval call base
    let i ← eval call index
    Eval.ofRun (Run.index b i)
  | .sliceObj start stop step => do
    let a ← evalBound call start
    let b ← evalBound call stop
    let c ← evalBound call step
    Eval.ofRun (Run.newSlice a b c)
  | .slice base start stop step => do
    let v ← eval call base
    let a ← evalBound call start
    let b ← evalBound call stop
    let c ← evalBound call step
    Eval.ofRun (Run.slice v a b c)
  | .attr base name => do
    let v ← eval call base
    Eval.ofRun (Run.attributeOf v name)
  | .call callee args star keywords doubleStar method => do
    let (function, receiver) ← match callee, method with
      | .attr base name, true => do
        let v ← eval call base
        let (function, bound) ← Eval.ofRun (Run.method v name)
        pure (function, if bound then [v] else [])
      | callee, _ => do
        let function ← eval call callee
        pure (function, [])
    let positional ← evalAll call args
    let starred ← evalStar call star
    let named ← evalKeywords call keywords
    let named ← evalDoubleStar call named doubleStar
    Eval.ofRun (call function (receiver ++ positional ++ starred) named)
  | .store name value => do
    let v ← eval call value
    modify fun s => { s with environment := s.environment.set name v }
    return .none
  | .sequence steps => evalSteps call steps
  | .next pair => throw (.compile (.evaluateTransfer (signature (.next pair))))

def evalAll (call : Caller) : List Node → Eval (List Value)
  | [] => return []
  | n :: rest => do
    let v ← eval call n
    let vs ← evalAll call rest
    return v :: vs

def evalLinks (call : Caller) (result left : Value) : List (CompareOp × Node) → Eval Value
  | [] => return result
  | (op, n) :: rest => do
    let right ← eval call n
    let result ← Eval.ofRun (Run.compare op left right)
    if ← Eval.truthy result then evalLinks call result right rest else return result

/-- Evaluates operands until one ends the chain, and gives its value or that of the last. -/
def evalOperands (call : Caller) (junction : Junction) : List Node → Eval Value
  | [] => return .none
  | [n] => eval call n
  | n :: rest => do
    let v ← eval call n
    if junction.endsWith (← Eval.truthy v) then return v else evalOperands call junction rest

def evalSteps (call : Caller) : List Node → Eval Value
  | [] => return .none
  | [n] => eval call n
  | n :: rest => do
    let _ ← eval call n
    evalSteps call rest

def evalBound (call : Caller) : Option Node → Eval Value
  | none => return .none
  | some n => eval call n

def evalStar (call : Caller) : Option Node → Eval (List Value)
  | none => return []
  | some n => do
    let v ← eval call n
    Eval.ofRun (Run.spreadArguments v)

def evalKeywords (call : Caller) : List (Text × Node) → Eval (List Keyword)
  | [] => return []
  | (name, n) :: rest => do
    let v ← eval call n
    let others ← evalKeywords call rest
    return ⟨name, v⟩ :: others

def evalDoubleStar (call : Caller) (keywords : List Keyword) : Option Node → Eval (List Keyword)
  | none => return keywords
  | some n => do
    let v ← eval call n
    let spread ← Eval.ofRun (Run.spreadKeywords v)
    Eval.ofRun (Run.ofExcept (Eval.mergeKeywords keywords spread))

end

def eval? (call : Caller) : Option Node → Eval Value
  | some n => n.eval call
  | none => throw (.compile .evaluateNothing)

end Node

end ExprBackend
