import ExprBackend.Text.Quoted
import ExprBackend.Value.Basic

/-! # Errors

Every error is a cause with its data. Its wording is given in one place, and its
category, which callers test for, in another.
-/

namespace ExprBackend

inductive Category where
  | zeroDivision | typeMismatch | index | key | missingAttribute | notCallable | value
  | scopeUnderflow
  deriving DecidableEq

inductive Division where
  | quotient | floorQuotient | remainder | realQuotient | realFloorQuotient | realRemainder | power
  deriving DecidableEq

def Division.message : Division → Text
  | .quotient => "division by zero"
  | .floorQuotient => "integer division by zero"
  | .remainder => "integer modulo by zero"
  | .realQuotient => "float division by zero"
  | .realFloorQuotient => "float floor division by zero"
  | .realRemainder => "float modulo by zero"
  | .power => "zero to a negative power"

inductive RuntimeError where
  | division (which : Division)
  /-- An operator that the kinds of its operands do not have. -/
  | operands (operator : Text) (kinds : List Kind)
  | repetitionTooLong
  | negativeShift
  | unhashable (kind : Kind)
  | indexKind (base index : Kind)
  | textIndexRange
  | indexRange (base : Kind)
  | assignmentRange
  | missingKey (key : Text)
  | notSubscriptable (kind : Kind)
  | notAssignable (kind : Kind)
  | notSliceable (kind : Kind)
  | sliceBound (bound : Text) (kind : Kind)
  | zeroStep
  | noAttribute (kind : Kind) (name : Text)
  | notCallable (kind : Kind)
  | starArguments (kind : Kind)
  | doubleStarArguments (kind : Kind)
  | keywordKind
  | repeatedKeyword (name : Text)
  | tooManyArguments (function : Text) (taken given : Nat)
  | unexpectedKeyword (function name : Text)
  | repeatedArgument (function name : Text)
  | missingArgument (function name : Text)
  | codeEnd (function : Text)
  | unknownOpcode (code : Nat) (offset : Int)
  | unpack (sequence : Text) (count : Nat)
  | callbackFailed
  | applyArguments
  | setItemArguments
  deriving DecidableEq

def RuntimeError.message : RuntimeError → Text
  | .division which => which.message
  | .operands operator kinds =>
    "unsupported operand type(s) for " ++ operator ++ ": " ++ Text.join ", " (kinds.map Kind.name)
  | .repetitionTooLong => "repeated sequence too long"
  | .negativeShift => "negative shift count"
  | .unhashable kind => "unhashable type: " ++ kind.name
  | .indexKind base index => base.name ++ " indices must be integers, not " ++ index.name
  | .textIndexRange => "string index out of range"
  | .indexRange base => base.name ++ " index out of range"
  | .assignmentRange => "list assignment index out of range"
  | .missingKey key => "key " ++ key ++ " not found"
  | .notSubscriptable kind => kind.name ++ " object is not subscriptable"
  | .notAssignable kind => kind.name ++ " object does not support item assignment"
  | .notSliceable kind => kind.name ++ " object is not sliceable"
  | .sliceBound bound kind => "slice " ++ bound ++ " must be an integer or None, not " ++ kind.name
  | .zeroStep => "slice step cannot be zero"
  | .noAttribute kind name => kind.name ++ " has no attribute " ++ Text.quote name
  | .notCallable kind => kind.name ++ " object is not callable"
  | .starArguments kind => "argument after * must be a list or tuple, not " ++ kind.name
  | .doubleStarArguments kind => "argument after ** must be a dict, not " ++ kind.name
  | .keywordKind => "keywords must be strings"
  | .repeatedKeyword name => "got multiple values for keyword argument " ++ Text.quote name
  | .tooManyArguments function taken given =>
    function ++ "() takes " ++ Text.ofNat taken ++ " arguments but " ++ Text.ofNat given
      ++ " were given"
  | .unexpectedKeyword function name =>
    function ++ "() got an unexpected keyword argument " ++ Text.quote name
  | .repeatedArgument function name =>
    function ++ "() got multiple values for argument " ++ Text.quote name
  | .missingArgument function name => function ++ "() missing argument " ++ Text.quote name
  | .codeEnd function => function ++ ": fell off the end of the code"
  | .unknownOpcode code offset =>
    "unknown opcode " ++ Text.ofNat code ++ " at " ++ Text.zeroPadded 4 offset
  | .unpack sequence count =>
    "cannot unpack " ++ sequence ++ " into " ++ Text.ofNat count ++ " values"
  | .callbackFailed => "callback failed"
  | .applyArguments => "apply needs an argument"
  | .setItemArguments => "setitem needs three arguments"

def RuntimeError.category : RuntimeError → Category
  | .division _ => .zeroDivision
  | .operands _ _ | .unhashable _ | .indexKind _ _ | .notSubscriptable _ | .notAssignable _
  | .notSliceable _ | .sliceBound _ _ | .starArguments _ | .doubleStarArguments _ | .keywordKind
  | .repeatedKeyword _ | .tooManyArguments _ _ _ | .unexpectedKeyword _ _ | .repeatedArgument _ _
  | .missingArgument _ _ => .typeMismatch
  | .textIndexRange | .indexRange _ | .assignmentRange => .index
  | .missingKey _ => .key
  | .noAttribute _ _ => .missingAttribute
  | .notCallable _ => .notCallable
  | .repetitionTooLong | .negativeShift | .zeroStep | .codeEnd _ | .unknownOpcode _ _ | .unpack _ _
  | .callbackFailed | .applyArguments | .setItemArguments => .value

inductive CodeError where
  /-- An expression changed the stack by another amount than it promises. -/
  | stackEffect (signature : Text) (net expected : Int)
  | prologueDepth (depth : Int)
  | prologueLabel
  | prologueTable
  | placedTwice (label : Int)
  | labelDepth (label : Int) (depth known : Int)
  | deadBackJump (label : Int)
  | backJumpDepth (label : Int) (depth known : Int)
  | tooLarge (bytes : Nat)
  | neverPlaced (label : Int)
  | cachedEffect (signature : Text)
  deriving DecidableEq

def CodeError.message : CodeError → Text
  | .stackEffect signature net expected =>
    "emitting " ++ signature ++ " changed the stack by " ++ Text.ofInt net ++ ", expected "
      ++ Text.ofInt expected
  | .prologueDepth depth => "prologue left " ++ Text.ofInt depth ++ " values on the stack"
  | .prologueLabel => "labels are not allowed in the prologue"
  | .prologueTable => "jump tables are not allowed in the prologue"
  | .placedTwice label => "label " ++ Text.ofInt label ++ " placed twice"
  | .labelDepth label depth known =>
    "stack depth mismatch at label " ++ Text.ofInt label ++ ": " ++ Text.ofInt depth ++ " vs "
      ++ Text.ofInt known
  | .deadBackJump label =>
    "jump back to label " ++ Text.ofInt label ++ ", which was placed in unreachable code"
  | .backJumpDepth label depth known =>
    "stack depth mismatch jumping back to label " ++ Text.ofInt label ++ ": " ++ Text.ofInt depth
      ++ " vs " ++ Text.ofInt known
  | .tooLarge bytes => "code too large (" ++ Text.ofNat bytes ++ " bytes)"
  | .neverPlaced label => "label " ++ Text.ofInt label ++ " was never placed"
  | .cachedEffect signature => "cached expression " ++ signature ++ " did not produce one value"

inductive CompileError where
  /-- A fault in the code of the named buffer. -/
  | code (buffer : Text) (cause : CodeError)
  | noOperand (junction : Text)
  | noComparison
  | noStep
  | evaluateNothing
  /-- An expression that only code can carry out. -/
  | evaluateTransfer (signature : Text)
  | uncacheable (signature : Text) (effect : Int)
  | noAction
  | actionDepth (signature : Text) (depth : Int)
  | rootPair (root : Text)
  | reservedParameter (name : Text)
  deriving DecidableEq

def CompileError.message : CompileError → Text
  | .code buffer cause => buffer ++ ": " ++ cause.message
  | .noOperand junction => junction ++ " needs at least one operand"
  | .noComparison => "comparison needs at least one operator"
  | .noStep => "sequence needs at least one step"
  | .evaluateNothing => "cannot evaluate <nil>"
  | .evaluateTransfer signature => "cannot evaluate *dispatch.NextNode " ++ signature
  | .uncacheable signature effect =>
    "cannot cache " ++ signature ++ ": stack effect " ++ Text.ofInt effect
  | .noAction => "cannot register a nil action"
  | .actionDepth signature depth =>
    "action " ++ signature ++ " leaves " ++ Text.ofInt depth ++ " values on the stack, expected 1"
  | .rootPair root => "dispatch root must be an (action, argument) pair, got " ++ root
  | .reservedParameter name => "parameter name " ++ Text.quote name ++ " is reserved"

inductive BindError where
  | notIdentifier
  | boundToNothing
  /-- Another name of the same scope has the same normal form. -/
  | sameIdentifier (other : Text)
  deriving DecidableEq

def BindError.message : BindError → Text
  | .notIdentifier => "not a valid identifier"
  | .boundToNothing => "bound to nil"
  | .sameIdentifier other => "same identifier as " ++ Text.quote other

inductive Error where
  | unresolved (name : Text)
  | bind (name : Text) (cause : BindError)
  | runtime (cause : RuntimeError)
  /-- An operation on constants failed while an expression was built. -/
  | fold (operation : Text) (cause : RuntimeError)
  /-- A dispatch loop met a pair whose action is not in its table. -/
  | invalidAction (action argument : Text)
  | compile (cause : CompileError)
  | scopeUnderflow
  deriving DecidableEq

namespace Error

/-- The wording of an error, without the word for its family. -/
def detail : Error → Text
  | .unresolved name => "unresolved name " ++ Text.quote name
  | .bind _ cause => cause.message
  | .runtime cause => cause.message
  | .fold operation cause => operation ++ ": Runtime Error: " ++ cause.message
  | .invalidAction action argument => "invalid action (" ++ action ++ ", " ++ argument ++ ")"
  | .compile cause => cause.message
  | .scopeUnderflow => "cannot pop a base scope"

def family? : Error → Option Text
  | .unresolved _ => some "Name"
  | .bind _ _ => some "Bind"
  | .runtime _ => some "Runtime"
  | .fold _ _ => some "Fold"
  | .invalidAction _ _ => some "Dispatch"
  | .compile _ => some "Compile"
  | .scopeUnderflow => none

def message (e : Error) : Text :=
  match e.family? with
  | none => e.detail
  | some family =>
    match e with
    | .bind name _ => family ++ " Error: " ++ Text.quote name ++ ": " ++ e.detail
    | _ => family ++ " Error: " ++ e.detail

def category? : Error → Option Category
  | .runtime cause => some cause.category
  | .fold _ cause => some cause.category
  | .scopeUnderflow => some .scopeUnderflow
  | _ => none

end Error

/-- A breach of what an operation takes for granted; nothing sensible can follow it. -/
inductive Fault where
  /-- A value is not of the kind that was relied on. -/
  | wrongKind (actual expected : Kind)
  | stackUnderflow
  | truncatedCode
  | badConstant
  /-- More constants in one pool than operands can tell apart. -/
  | fullPool
  | badLocal
  | badTable
  | badOffset
  | badStackSize
  | unknownOperator
  | unknownLabel
  | undeclaredParameter
  | foreignRegionCount
  | danglingFunction
  deriving DecidableEq

def Fault.message? : Fault → Option Text
  | .wrongKind actual expected => some ("value is " ++ actual.name ++ ", not " ++ expected.name)
  | .fullPool => some "Too many constants in one chunk."
  | _ => none

inductive Failure where
  | error (e : Error)
  | fault (f : Fault)
  /-- The allotted number of steps was used up. -/
  | exhausted
  deriving DecidableEq

def Failure.runtime (e : RuntimeError) : Failure := .error (.runtime e)

def Failure.compile (e : CompileError) : Failure := .error (.compile e)

end ExprBackend
