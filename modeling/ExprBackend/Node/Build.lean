import ExprBackend.Node.Basic
import ExprBackend.Operator.Arguments
import ExprBackend.Operator.Arithmetic
import ExprBackend.Operator.Attribute
import ExprBackend.Operator.Subscript

/-! # Building expressions

Expressions are built bottom up. An operation on constants is carried out at
once, and an operation that fails then is an error of the building. Calls are
never carried out, since they may have effects.
-/

namespace ExprBackend.Build

def const (v : Value) : Run Node := return .const v ((← get).signature v)

def folding {α : Type} (operation : Text) (action : Run α) : Run α :=
  tryCatch action fun
    | .error (.runtime cause) => throw (.error (.fold operation cause))
    | failure => throw failure

def folded (operation : Text) (action : Run Value) : Run Node := do
  const (← folding operation action)

def unary (op : UnaryOp) (operand : Node) : Run Node :=
  match operand.constant? with
  | some v => folded op.symbol (Run.unary op v)
  | none => return .unary op operand

def binary (op : BinaryOp) (left right : Node) : Run Node :=
  match left.constant?, right.constant? with
  | some a, some b => folded op.symbol (Run.binary op a b)
  | _, _ => return .binary op left right

/-- Compares neighbours until one comparison is false, and gives the last result. -/
def foldLinks (result left : Value) : List (UInt8 × Value) → Run Value
  | [] => return result
  | (code, right) :: rest => do
    let symbol := ((CompareOp.ofCode? code).map CompareOp.symbol).getD []
    let result ← folding symbol (Run.compareCode code left right)
    if ← Run.truthy result then foldLinks result right rest else return result

/-- A chain of comparisons given by their numbers. -/
def compareCodes (subject : Node) (links : List (UInt8 × Node)) : Run Node := do
  if links.isEmpty then throw (.compile .noComparison)
  match subject.constant?, Node.constants? (links.map Prod.snd) with
  | some v, some operands =>
    const (← foldLinks (.bool true) v ((links.map Prod.fst).zip operands))
  | _, _ =>
    match links.mapM fun (code, n) => (CompareOp.ofCode? code).map (·, n) with
    | some links => return .compare subject links
    | none => Run.stop .unknownOperator

def compare (subject : Node) (links : List (CompareOp × Node)) : Run Node :=
  compareCodes subject (links.map fun (op, n) => (op.code, n))

/-- Adds a comparison, given by its number, to a chain; anything else starts a new chain. -/
def chainCode (left : Node) (code : UInt8) (right : Node) : Run Node :=
  match left with
  | .compare subject links =>
    compareCodes subject (links.map (fun (op, n) => (op.code, n)) ++ [(code, right)])
  | left => compareCodes left [(code, right)]

def chain (left : Node) (op : CompareOp) (right : Node) : Run Node := chainCode left op.code right

/-- Whether a constant operand ends a short-circuit chain. -/
def decides? (h : Heap) (junction : Junction) (n : Node) : Option Bool :=
  n.constant?.map fun v => junction.endsWith (h.truthy v)

/-- Leaves out leading constants that cannot be the result, and all that follows one that is. -/
def dropLeading (h : Heap) (junction : Junction) : List Node → List Node
  | [] => []
  | [n] => [n]
  | n :: rest =>
    match decides? h junction n with
    | some true => [n]
    | some false => dropLeading h junction rest
    | none => n :: rest

/-- Leaves out constants that cannot be the result, and all that follows one that ends the
chain. -/
def prune (h : Heap) (junction : Junction) : List Node → List Node
  | [] => []
  | [n] => [n]
  | n :: rest =>
    match decides? h junction n with
    | some true => [n]
    | some false => prune h junction rest
    | none => n :: prune h junction rest

def logical (junction : Junction) (operands : List Node) : Run Node := do
  let h ← get
  match dropLeading h junction operands with
  | [] => throw (.compile (.noOperand junction.word))
  | [n] => return n
  | n :: rest => return .logical junction (n :: prune h junction rest)

/-- A choice between two expressions; a constant test makes it at once. -/
def cond (test yes no : Node) : Run Node := do
  match test.constant? with
  | some v => return if ← Run.truthy v then yes else no
  | none => return .cond test yes no

/-- A list literal. A list of constants is one value, shared by all that load it. -/
def list (elements : List Node) : Run Node := do
  match Node.constants? elements with
  | some values => const (← Run.newList values)
  | none => return .collection .list elements

def tuple (elements : List Node) : Run Node := do
  match Node.constants? elements with
  | some values => const (← Run.newTuple values)
  | none => return .collection .tuple elements

/-- A dictionary literal of keys and values in turn; of equal keys the last value counts. -/
def dict (elements : List Node) : Run Node :=
  match Node.constants? elements with
  | some values => folded "dict" (Run.buildDict values)
  | none => return .collection .dict elements

def subscript (base index : Node) : Run Node :=
  match base.constant?, index.constant? with
  | some b, some i => folded "getitem" (Run.index b i)
  | _, _ => return .subscript base index

/-- The values of bounds that are all constants or left out. -/
def boundConstants? (start stop step : Option Node) : Option (Value × Value × Value) :=
  match Node.boundConstant? start, Node.boundConstant? stop, Node.boundConstant? step with
  | some a, some b, some c => some (a, b, c)
  | _, _, _ => none

def sliceObj (start stop step : Option Node) : Run Node := do
  match boundConstants? start stop step with
  | some (a, b, c) => const (← Run.newSlice a b c)
  | none => return .sliceObj start stop step

def slice (base : Node) (start stop step : Option Node) : Run Node :=
  match base.constant?, boundConstants? start stop step with
  | some v, some (a, b, c) => folded "slice" (Run.slice v a b c)
  | _, _ => return .slice base start stop step

/-- An attribute. The attribute of a constant is looked up at once if it is there; otherwise the
lookup is left to run time. -/
def attr (base : Node) (name : Text) : Run Node := do
  match base.constant? with
  | some v =>
    match ← Run.attribute? v name with
    | some result => const result
    | none => return .attr base name
  | none => return .attr base name

def sequence (steps : List Node) : Run Node :=
  match steps with
  | [] => throw (.compile .noStep)
  | [step] => return step
  | steps => return .sequence steps

end ExprBackend.Build
