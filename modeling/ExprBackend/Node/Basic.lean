import ExprBackend.Operator.Kind
import ExprBackend.View.Text

/-! # Expressions

An expression is a tree of nodes. Its signature is a text that is canonical:
expressions with the same signature are interchangeable. A constant keeps the
signature that its value had when the constant was made, since the contents of
the value may change later.
-/

namespace ExprBackend

/-- How the operands of a short-circuit chain are joined. -/
inductive Junction where
  /-- The first false operand counts, or the last. -/
  | and
  /-- The first true operand counts, or the last. -/
  | or
  deriving DecidableEq

def Junction.word : Junction → Text
  | .and => "and"
  | .or => "or"

/-- Whether an operand with a truth value ends the chain. -/
def Junction.endsWith : Junction → Bool → Bool
  | .and, truth => !truth
  | .or, truth => truth

inductive CollectionKind where
  | list
  | tuple
  /-- Elements are keys and values in turn. -/
  | dict
  deriving DecidableEq

def CollectionKind.word : CollectionKind → Text
  | .list => "list"
  | .tuple => "tuple"
  | .dict => "dict"

inductive Node where
  /-- A value, with the signature it had when the node was made. -/
  | const (value : Value) (valueSignature : Text)
  | var (name : Text)
  | unary (op : UnaryOp) (operand : Node)
  | binary (op : BinaryOp) (left right : Node)
  /-- A chain of comparisons of neighbours, all of which have to hold. -/
  | compare (subject : Node) (links : List (CompareOp × Node))
  | logical (junction : Junction) (operands : List Node)
  | cond (test yes no : Node)
  | collection (kind : CollectionKind) (elements : List Node)
  | subscript (base index : Node)
  | sliceObj (start stop step : Option Node)
  | slice (base : Node) (start stop step : Option Node)
  | attr (base : Node) (name : Text)
  /-- A call. If it is a method call, an attribute as callee is looked up with its receiver. -/
  | call (callee : Node) (args : List Node) (star : Option Node) (keywords : List (Text × Node))
      (doubleStar : Option Node) (method : Bool)
  /-- Gives a name a value, and has none itself. -/
  | store (name : Text) (value : Node)
  | sequence (steps : List Node)
  /-- Goes on with another pair of action and argument; nothing after it is carried out. -/
  | next (pair : Node)
  deriving Inhabited

namespace Node

/-- The operands that are there. -/
def present (bounds : List (Option Node)) : List Node := bounds.filterMap id

/-- The operands, in the order in which they are computed. -/
def children : Node → List Node
  | .const _ _ | .var _ => []
  | .unary _ operand => [operand]
  | .binary _ left right => [left, right]
  | .compare subject links => subject :: links.map Prod.snd
  | .logical _ operands => operands
  | .cond test yes no => [test, yes, no]
  | .collection _ elements => elements
  | .subscript base index => [base, index]
  | .sliceObj start stop step => present [start, stop, step]
  | .slice base start stop step => base :: present [start, stop, step]
  | .attr base _ => [base]
  | .call callee args star keywords doubleStar _ =>
    callee :: args ++ present [star] ++ keywords.map Prod.snd ++ present [doubleStar]
  | .store _ value => [value]
  | .sequence steps => steps
  | .next pair => [pair]

def isTerminal : Node → Bool
  | .const _ _ | .var _ => true
  | _ => false

def constant? : Node → Option Value
  | .const v _ => some v
  | _ => none

def constants? : List Node → Option (List Value)
  | [] => some []
  | n :: rest =>
    match n.constant?, constants? rest with
    | some v, some vs => some (v :: vs)
    | _, _ => none

/-- The value of a bound that is a constant or left out. -/
def boundConstant? : Option Node → Option Value
  | none => some .none
  | some n => n.constant?

mutual

def signatureThen : Node → Text → Text
  | .const _ valueSignature, rest => "Const(" ++ valueSignature ++ (")" ++ rest)
  | .var name, rest => "Var(" ++ Text.quote name ++ (")" ++ rest)
  | .unary op operand, rest =>
    "Unary(" ++ op.symbol ++ "," ++ operand.signatureThen (")" ++ rest)
  | .binary op left right, rest =>
    "Binary(" ++ op.symbol ++ ","
      ++ left.signatureThen ("," ++ right.signatureThen (")" ++ rest))
  | .compare subject links, rest =>
    "Compare(" ++ subject.signatureThen (linksThen links (")" ++ rest))
  | .logical junction operands, rest =>
    "Logical(" ++ junction.word ++ ",[" ++ signaturesThen operands ("])" ++ rest)
  | .cond test yes no, rest =>
    "Cond(" ++ test.signatureThen
      ("," ++ yes.signatureThen ("," ++ no.signatureThen (")" ++ rest)))
  | .collection kind elements, rest =>
    "Collection(" ++ kind.word ++ ",[" ++ signaturesThen elements ("])" ++ rest)
  | .subscript base index, rest =>
    "Subscript(" ++ base.signatureThen ("," ++ index.signatureThen (")" ++ rest))
  | .sliceObj start stop step, rest =>
    "SliceObj(" ++ boundThen start ("," ++ boundThen stop ("," ++ boundThen step (")" ++ rest)))
  | .slice base start stop step, rest =>
    "Slice(" ++ base.signatureThen
      ("," ++ boundThen start ("," ++ boundThen stop ("," ++ boundThen step (")" ++ rest))))
  | .attr base name, rest =>
    "Attr(" ++ base.signatureThen ("," ++ Text.quote name ++ (")" ++ rest))
  | .call callee args star keywords doubleStar method, rest =>
    "Call(" ++ callee.signatureThen
      (",[" ++ signaturesThen args
        ("],[" ++ keywordsThen keywords
          ("]," ++ boundThen star
            ("," ++ boundThen doubleStar ("," ++ Text.ofBool method ++ (")" ++ rest))))))
  | .store name value, rest =>
    "Store(" ++ Text.quote name ++ "," ++ value.signatureThen (")" ++ rest)
  | .sequence steps, rest => "Do([" ++ signaturesThen steps ("])" ++ rest)
  | .next pair, rest => "Next(" ++ pair.signatureThen (")" ++ rest)

/-- The signatures of several expressions with commas between them, then the rest. -/
def signaturesThen : List Node → Text → Text
  | [], rest => rest
  | [n], rest => n.signatureThen rest
  | n :: ns, rest => n.signatureThen ("," ++ signaturesThen ns rest)

def linksThen : List (CompareOp × Node) → Text → Text
  | [], rest => rest
  | (op, n) :: links, rest =>
    "," ++ op.symbol ++ "," ++ n.signatureThen (linksThen links rest)

def keywordsThen : List (Text × Node) → Text → Text
  | [], rest => rest
  | [(name, n)], rest => Text.quote name ++ "=" ++ n.signatureThen rest
  | (name, n) :: keywords, rest =>
    Text.quote name ++ "=" ++ n.signatureThen ("," ++ keywordsThen keywords rest)

def boundThen : Option Node → Text → Text
  | none, rest => "-" ++ rest
  | some n, rest => n.signatureThen rest

end

def signature (n : Node) : Text := n.signatureThen []

mutual

/-- By how much an expression promises to change the height of the operand stack. -/
def effect : Node → Int
  | .store _ _ => 0
  | .sequence steps => lastEffect steps
  | _ => 1

def lastEffect : List Node → Int
  | [] => 1
  | [n] => n.effect
  | _ :: rest => lastEffect rest

end

/-- An expression and what is visited below it, unless the test refuses to go down, then the
rest. -/
def visited (goDown : Node → Bool) (n : Node) (below : List Node → List Node) (rest : List Node) :
    List Node :=
  n :: if goDown n then below rest else rest

mutual

def under (goDown : Node → Bool) : Node → List Node → List Node
  | .const _ _ | .var _ => id
  | .unary _ operand => visited goDown operand (under goDown operand)
  | .binary _ left right => fun rest =>
    visited goDown left (under goDown left) (visited goDown right (under goDown right) rest)
  | .compare subject links => fun rest =>
    visited goDown subject (under goDown subject) (underLinks goDown links rest)
  | .logical _ operands => underAll goDown operands
  | .cond test yes no => fun rest =>
    visited goDown test (under goDown test)
      (visited goDown yes (under goDown yes) (visited goDown no (under goDown no) rest))
  | .collection _ elements => underAll goDown elements
  | .subscript base index => fun rest =>
    visited goDown base (under goDown base) (visited goDown index (under goDown index) rest)
  | .sliceObj start stop step => fun rest =>
    underBound goDown start (underBound goDown stop (underBound goDown step rest))
  | .slice base start stop step => fun rest =>
    visited goDown base (under goDown base)
      (underBound goDown start (underBound goDown stop (underBound goDown step rest)))
  | .attr base _ => visited goDown base (under goDown base)
  | .call callee args star keywords doubleStar _ => fun rest =>
    visited goDown callee (under goDown callee)
      (underAll goDown args
        (underBound goDown star
          (underKeywords goDown keywords (underBound goDown doubleStar rest))))
  | .store _ value => visited goDown value (under goDown value)
  | .sequence steps => underAll goDown steps
  | .next pair => visited goDown pair (under goDown pair)

def underAll (goDown : Node → Bool) : List Node → List Node → List Node
  | [] => id
  | n :: ns => fun rest => visited goDown n (under goDown n) (underAll goDown ns rest)

def underLinks (goDown : Node → Bool) : List (CompareOp × Node) → List Node → List Node
  | [] => id
  | (_, n) :: links => fun rest =>
    visited goDown n (under goDown n) (underLinks goDown links rest)

def underKeywords (goDown : Node → Bool) : List (Text × Node) → List Node → List Node
  | [] => id
  | (_, n) :: keywords => fun rest =>
    visited goDown n (under goDown n) (underKeywords goDown keywords rest)

def underBound (goDown : Node → Bool) : Option Node → List Node → List Node
  | none => id
  | some n => visited goDown n (under goDown n)

end

/-- The expression and what is below it, parents first. Below an expression that the test refuses
nothing is visited. -/
def walk (goDown : Node → Bool) (n : Node) : List Node := visited goDown n (under goDown n) []

def subexpressions (n : Node) : List Node := n.walk fun _ => true

end Node

end ExprBackend
