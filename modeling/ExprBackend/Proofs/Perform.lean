import ExprBackend.Proofs.Computation
import ExprBackend.Proofs.Subexpression

/-! # What code performs

The meaning of the code of an expression, without code. It differs from the
evaluation of the expression in the treatment of names: whether a name is local
is settled in the order in which code is emitted, so an assignment also counts
where it is never carried out. A transfer leaves the expression with a pair of
action and argument. Every expression passes through a gate, where a cache can
take its value from elsewhere.
-/

namespace ExprBackend

/-- How the code of an expression ends if not with a value. -/
inductive Exit where
  | failure (f : Failure)
  /-- It goes on with a pair of action and argument. -/
  | transfer (pair : Value)

/-- What running code reads and changes. -/
structure Scene where
  heap : Heap
  locals : Text → Value

/-- Running code gives a value or ends early. -/
abbrev Perform := ExceptT Exit (StateM Scene)

/-- What is known of names at a place in the code. -/
structure Context where
  /-- The names that are local. -/
  scope : List Text
  /-- The names that have been given a value. -/
  volatile : List Text

namespace Context

def after (ctx : Context) (n : Node) : Context :=
  ⟨ctx.scope ++ n.assigned, ctx.volatile ++ n.assigned⟩

/-- What is known when a name is about to be given a value. -/
def touch (ctx : Context) (name : Text) : Context := { ctx with volatile := ctx.volatile ++ [name] }

def afterAll (ctx : Context) (ns : List Node) : Context := ns.foldl after ctx

end Context

/-- What stands between an expression and those that use it. -/
abbrev Gate := Node → Context → Perform Value → Perform Value

/-- The gate that lets every expression through. -/
def Gate.opened : Gate := fun _ _ action => action

namespace Perform

def ofRun {α : Type} (action : Run α) : Perform α := fun s =>
  match action s.heap with
  | (.ok a, heap) => (.ok a, { s with heap })
  | (.error f, heap) => (.error (.failure f), { s with heap })

def name (globals : Bindings) (ctx : Context) (name : Text) : Perform Value := do
  if name ∈ ctx.scope then return (← get).locals name
  else
    match globals.get? name with
    | some v => pure v
    | none => throw (.failure (.error (.unresolved name)))

def assign (name : Text) (v : Value) : Perform Unit :=
  modify fun s => { s with locals := fun other => if other = name then v else s.locals other }

/-- The items of a sequence that has so many. -/
def unpack (count : Nat) (v : Value) : Perform (List Value) := do
  let h := (← get).heap
  match h.items? v with
  | some items =>
    if items.length = count then pure items
    else throw (.failure (.runtime (.unpack (h.text v) count)))
  | none => throw (.failure (.runtime (.unpack (h.text v) count)))

/-- Adds the items that a value spreads into to a list. -/
def extending (list v : Value) : Run Unit := do
  let items ← Run.spreadArguments v
  match list with
  | .list r => modify fun h => h.modifyList r (· ++ items.toArray)
  | top => Run.stop (.wrongKind top.kind .list)

/-- Adds the entries that a value spreads into to a dictionary. -/
def merging (dict v : Value) : Run Unit := do
  let keywords ← Run.spreadKeywords v
  match dict with
  | .dict r => Machine.mergeKeywords r keywords
  | top => Run.stop (.wrongKind top.kind .dict)

/-- Calls a function with a list of arguments and a dictionary of keywords. -/
def spreading (list dict : Value) (call : List Value → List Keyword → Run Value) : Run Value := do
  let args := ((← get).items? list).getD []
  let keywords ← Run.spreadKeywords dict
  call args keywords

def extend (list v : Value) : Perform Unit := ofRun (extending list v)

def merge (dict v : Value) : Perform Unit := ofRun (merging dict v)

/-- Calls a function with a list of arguments, behind a receiver if there is one, and a dictionary
of keywords. -/
def callSpread (call : Caller) (function : Value) (receiver : Option Value)
    (list dict : Value) : Perform Value :=
  ofRun (spreading list dict fun args keywords =>
    match receiver with
    | some receiver => call function (Machine.withReceiver receiver args) keywords
    | none => call function args keywords)

end Perform

namespace Node

open Perform

mutual

/-- What the code of an expression does. -/
def perform (call : Caller) (globals : Bindings) (gate : Gate) : Node → Context → Perform Value
  | .const v signature, ctx => gate (.const v signature) ctx (pure v)
  | .var name, ctx => gate (.var name) ctx (Perform.name globals ctx name)
  | .unary op operand, ctx => gate (.unary op operand) ctx do
    let v ← perform call globals gate operand ctx
    ofRun (Run.unary op v)
  | .binary op left right, ctx => gate (.binary op left right) ctx do
    let a ← perform call globals gate left ctx
    let b ← perform call globals gate right (ctx.after left)
    ofRun (Run.binary op a b)
  | .compare subject links, ctx => gate (.compare subject links) ctx do
    let v ← perform call globals gate subject ctx
    performLinks call globals gate v links (ctx.after subject)
  | .logical junction operands, ctx => gate (.logical junction operands) ctx do
    performOperands call globals gate junction operands ctx
  | .cond test yes no, ctx => gate (.cond test yes no) ctx do
    let t ← perform call globals gate test ctx
    if ← ofRun (Run.truthy t) then perform call globals gate yes (ctx.after test)
    else perform call globals gate no ((ctx.after test).after yes)
  | .collection kind elements, ctx => gate (.collection kind elements) ctx do
    let values ← performAll call globals gate elements ctx
    match kind with
    | .list => ofRun (Run.newList values)
    | .tuple => ofRun (Run.newTuple values)
    | .dict => ofRun (Run.buildDict values)
  | .subscript base index, ctx => gate (.subscript base index) ctx do
    let b ← perform call globals gate base ctx
    let i ← perform call globals gate index (ctx.after base)
    ofRun (Run.index b i)
  | .sliceObj start stop step, ctx => gate (.sliceObj start stop step) ctx do
    let a ← performBound call globals gate start ctx
    let ctx := ctx.afterAll start.toList
    let b ← performBound call globals gate stop ctx
    let ctx := ctx.afterAll stop.toList
    let c ← performBound call globals gate step ctx
    ofRun (Run.newSlice a b c)
  | .slice base start stop step, ctx => gate (.slice base start stop step) ctx do
    let v ← perform call globals gate base ctx
    let ctx := ctx.after base
    let a ← performBound call globals gate start ctx
    let ctx := ctx.afterAll start.toList
    let b ← performBound call globals gate stop ctx
    let ctx := ctx.afterAll stop.toList
    let c ← performBound call globals gate step ctx
    let s ← ofRun (Run.newSlice a b c)
    ofRun (Run.index v s)
  | .attr base name, ctx => gate (.attr base name) ctx do
    let v ← perform call globals gate base ctx
    ofRun (Run.attributeOf v name)
  | .call callee args star keywords doubleStar method, ctx =>
    gate (.call callee args star keywords doubleStar method) ctx do
    let (function, receiver) ← match callee, method with
      | .attr base name, true => do
        let v ← perform call globals gate base ctx
        let (function, bound) ← ofRun (Run.method v name)
        pure (function, some (if bound then v else .noReceiver))
      | callee, _ => do
        let function ← perform call globals gate callee ctx
        pure (function, none)
    let ctx := ctx.after callee
    let positional ← performAll call globals gate args ctx
    if star.isNone && doubleStar.isNone && keywords.isEmpty then
      match receiver with
      | some receiver =>
        ofRun (call function (Machine.withReceiver receiver positional) [])
      | none => ofRun (call function positional [])
    else
      let ctx := ctx.afterAll args
      let list ← ofRun (Run.newList positional)
      performStar call globals gate list star ctx
      let ctx := ctx.afterAll star.toList
      let named ← performKeywords call globals gate keywords ctx
      let dict ← ofRun (Run.buildDict named)
      performDoubleStar call globals gate dict doubleStar (ctx.afterAll (keywords.map Prod.snd))
      callSpread call function receiver list dict
  | .store name value, ctx => gate (.store name value) ctx do
    let v ← perform call globals gate value (ctx.touch name)
    assign name v
    return .none
  | .sequence steps, ctx => gate (.sequence steps) ctx do
    performSteps call globals gate steps ctx
  | .next pair, ctx => gate (.next pair) ctx do
    let v ← perform call globals gate pair ctx
    throw (.transfer v)

def performAll (call : Caller) (globals : Bindings) (gate : Gate) :
    List Node → Context → Perform (List Value)
  | [], _ => return []
  | n :: rest, ctx => do
    let v ← perform call globals gate n ctx
    let vs ← performAll call globals gate rest (ctx.after n)
    return v :: vs

def performLinks (call : Caller) (globals : Bindings) (gate : Gate) (left : Value) :
    List (CompareOp × Node) → Context → Perform Value
  | [], _ => return left
  | [(op, n)], ctx => do
    let right ← perform call globals gate n ctx
    ofRun (Run.compare op left right)
  | (op, n) :: rest, ctx => do
    let right ← perform call globals gate n ctx
    let result ← ofRun (Run.compare op left right)
    if ← ofRun (Run.truthy result) then
      performLinks call globals gate right rest (ctx.after n)
    else return result

def performOperands (call : Caller) (globals : Bindings) (gate : Gate) (junction : Junction) :
    List Node → Context → Perform Value
  | [], _ => return .none
  | [n], ctx => perform call globals gate n ctx
  | n :: rest, ctx => do
    let v ← perform call globals gate n ctx
    if junction.endsWith (← ofRun (Run.truthy v)) then return v
    else performOperands call globals gate junction rest (ctx.after n)

def performSteps (call : Caller) (globals : Bindings) (gate : Gate) :
    List Node → Context → Perform Value
  | [], _ => return .none
  | [n], ctx => perform call globals gate n ctx
  | n :: rest, ctx => do
    let _ ← perform call globals gate n ctx
    performSteps call globals gate rest (ctx.after n)

def performBound (call : Caller) (globals : Bindings) (gate : Gate) :
    Option Node → Context → Perform Value
  | none, _ => return .none
  | some n, ctx => perform call globals gate n ctx

def performStar (call : Caller) (globals : Bindings) (gate : Gate) (list : Value) :
    Option Node → Context → Perform Unit
  | none, _ => return
  | some n, ctx => do
    let v ← perform call globals gate n ctx
    extend list v

def performKeywords (call : Caller) (globals : Bindings) (gate : Gate) :
    List (Text × Node) → Context → Perform (List Value)
  | [], _ => return []
  | (name, n) :: rest, ctx => do
    let v ← perform call globals gate n ctx
    let others ← performKeywords call globals gate rest (ctx.after n)
    return .str name :: v :: others

def performDoubleStar (call : Caller) (globals : Bindings) (gate : Gate) (dict : Value) :
    Option Node → Context → Perform Unit
  | none, _ => return
  | some n, ctx => do
    let v ← perform call globals gate n ctx
    merge dict v

end

/-- What the code of the callee of a call does. It gives the function, and for a method what is to
be passed to it first. -/
def performCallee (call : Caller) (globals : Bindings) (gate : Gate) (callee : Node)
    (method : Bool) (ctx : Context) : Perform (Value × Option Value) :=
  match callee, method with
  | .attr base name, true => do
    let v ← perform call globals gate base ctx
    let (function, bound) ← ofRun (Run.method v name)
    pure (function, some (if bound then v else .noReceiver))
  | callee, _ => do
    let function ← perform call globals gate callee ctx
    pure (function, none)

/-- What the code of the arguments of a call and of the call itself does. -/
def performArguments (call : Caller) (globals : Bindings) (gate : Gate) (args : List Node)
    (star : Option Node) (keywords : List (Text × Node)) (doubleStar : Option Node) (ctx : Context)
    (function : Value) (receiver : Option Value) : Perform Value := do
  let positional ← performAll call globals gate args ctx
  if star.isNone && doubleStar.isNone && keywords.isEmpty then
    match receiver with
    | some receiver =>
      ofRun (call function (Machine.withReceiver receiver positional) [])
    | none => ofRun (call function positional [])
  else
    let ctx := ctx.afterAll args
    let list ← ofRun (Run.newList positional)
    performStar call globals gate list star ctx
    let ctx := ctx.afterAll star.toList
    let named ← performKeywords call globals gate keywords ctx
    let dict ← ofRun (Run.buildDict named)
    performDoubleStar call globals gate dict doubleStar (ctx.afterAll (keywords.map Prod.snd))
    callSpread call function receiver list dict

theorem perform_call (call : Caller) (globals : Bindings) (gate : Gate) (callee : Node)
    (args : List Node) (star : Option Node) (keywords : List (Text × Node))
    (doubleStar : Option Node) (method : Bool) (ctx : Context) :
    perform call globals gate (.call callee args star keywords doubleStar method) ctx =
      gate (.call callee args star keywords doubleStar method) ctx (do
        let (function, receiver) ← performCallee call globals gate callee method ctx
        performArguments call globals gate args star keywords doubleStar (ctx.after callee)
          function receiver) := by
  cases callee <;> cases method <;>
    simp only [perform, performCallee, performArguments, bind_assoc, pure_bind]

section Chains

variable (call : Caller) (globals : Bindings) (gate : Gate)

theorem performLinks_cons (left : Value) (op : CompareOp) (n : Node) (link : CompareOp × Node)
    (rest : List (CompareOp × Node)) (ctx : Context) :
    performLinks call globals gate left ((op, n) :: link :: rest) ctx = (do
      let right ← perform call globals gate n ctx
      let result ← ofRun (Run.compare op left right)
      if ← ofRun (Run.truthy result) then
        performLinks call globals gate right (link :: rest) (ctx.after n)
      else return result) := by
  rw [performLinks]
  simp

theorem performOperands_cons (junction : Junction) (n m : Node) (rest : List Node)
    (ctx : Context) :
    performOperands call globals gate junction (n :: m :: rest) ctx = (do
      let v ← perform call globals gate n ctx
      if junction.endsWith (← ofRun (Run.truthy v)) then return v
      else performOperands call globals gate junction (m :: rest) (ctx.after n)) := by
  rw [performOperands]
  simp

theorem performSteps_cons (n m : Node) (rest : List Node) (ctx : Context) :
    performSteps call globals gate (n :: m :: rest) ctx = (do
      let _ ← perform call globals gate n ctx
      performSteps call globals gate (m :: rest) (ctx.after n)) := by
  rw [performSteps]
  simp

end Chains

end Node

end ExprBackend
