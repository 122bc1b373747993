import ExprBackend.Cache.Region

/-! # Emitting expressions

The code of an expression leaves its value on the stack. Every expression is
emitted through one gate: there interceptors can take over, emissions are
observed, and it is checked that the expression has kept its promise about the
height of the stack. What is emitted for an expression itself does not depend on
what the gate does.
-/

namespace ExprBackend

def actionName : Text := "<action>"

def argumentName : Text := "<arg>"

def loopLabel : Text := "dispatch.loop"

namespace Emit

def within {α : Type} (n : Node) (emission : Emit α) : Emit α := fun marks c =>
  let (result, inner) := emission marks { c with emitting := n.lazySignature :: c.emitting }
  (result, { inner with emitting := c.emitting })

/-- Emits an expression, given the emission of its own, and checks that it keeps its promise.
Nothing can be said of the height of the stack where the code cannot be reached. -/
def expression (n : Node) (emission : Emit Unit) : Emit Unit := do
  let parent := (← get).emitting.head?
  let before := (← get).depth
  within n (interceptable n emission)
  let c ← get
  let net := height (c.depth - before)
  report (.emitted c.name n net c.reachable)
  if c.observing then
    modify fun c => { c with observations := c.observations.push ⟨parent, n, net, c.reachable⟩ }
  if c.reachable && net != n.effect then fail (.stackEffect n.signature net n.effect)

def popEffect (effect : Int) : Emit Unit := if 0 < effect then pop else pure ()

/-- Goes on with the pair on top of the stack at the top of the dispatch loop. -/
def transfer : Emit Unit := do
  unpack 2
  storeName actionName
  storeName argumentName
  jump (← namedLabel loopLabel)

def leave : Junction → Label → Emit Unit
  | .and => jumpIfFalseOrPop
  | .or => jumpIfTrueOrPop

end Emit

namespace Node

section

variable (gate : Node → Emit Unit → Emit Unit)

mutual

/-- The code of an expression, whose operands are emitted through a gate. -/
def emitBy : Node → Emit Unit
  | .const v _ => Emit.loadConst v
  | .var name => Emit.loadName name
  | .unary op operand => do
    gate operand (emitBy operand)
    Emit.unary op.code
  | .binary op left right => do
    gate left (emitBy left)
    gate right (emitBy right)
    Emit.binary op.code
  | .compare subject links => do
    gate subject (emitBy subject)
    match links with
    | [(op, operand)] => do
      gate operand (emitBy operand)
      Emit.compare op.code
    | links => do
      let cleanup ← Emit.newLabel
      let done ← Emit.newLabel
      emitLinksBy cleanup links
      Emit.jump done
      Emit.mark cleanup
      Emit.rot2
      Emit.pop
      Emit.mark done
  | .logical junction operands => do
    let done ← Emit.newLabel
    emitOperandsBy junction done operands
    Emit.mark done
  | .cond test yes no => do
    let otherwise ← Emit.newLabel
    let done ← Emit.newLabel
    gate test (emitBy test)
    Emit.jumpIfFalse otherwise
    gate yes (emitBy yes)
    Emit.jump done
    Emit.mark otherwise
    gate no (emitBy no)
    Emit.mark done
  | .collection kind elements => do
    emitAllBy elements
    match kind with
    | .list => Emit.buildList elements.length
    | .tuple => Emit.buildTuple elements.length
    | .dict => Emit.buildDict (elements.length / 2 : Nat)
  | .subscript base index => do
    gate base (emitBy base)
    gate index (emitBy index)
    Emit.getIndex
  | .sliceObj start stop step => do
    emitBoundBy start
    emitBoundBy stop
    emitBoundBy step
    Emit.buildSlice
  | .slice base start stop step => do
    gate base (emitBy base)
    emitBoundBy start
    emitBoundBy stop
    emitBoundBy step
    Emit.buildSlice
    Emit.getIndex
  | .attr base name => do
    gate base (emitBy base)
    Emit.getAttr name
  | .call callee args star keywords doubleStar method => do
    let withReceiver ← match callee, method with
      | .attr base name, true => do
        gate base (emitBy base)
        Emit.loadMethod name
        pure true
      | callee, _ => do
        gate callee (emitBy callee)
        pure false
    emitAllBy args
    if star.isNone && doubleStar.isNone && keywords.isEmpty then
      if withReceiver then Emit.callMethod args.length else Emit.call args.length
    else
      Emit.buildList args.length
      emitStarBy star
      emitKeywordsBy keywords
      Emit.buildDict keywords.length
      emitDoubleStarBy doubleStar
      Emit.callEx withReceiver
  | .store name value => do
    gate value (emitBy value)
    Emit.storeName name
  | .sequence steps => emitStepsBy steps
  | .next pair => do
    gate pair (emitBy pair)
    Emit.transfer

def emitAllBy : List Node → Emit Unit
  | [] => pure ()
  | n :: rest => do
    gate n (emitBy n)
    emitAllBy rest

/-- The code of a chain of comparisons. Each operand is kept for the next comparison, and the
first false one leaves the chain. -/
def emitLinksBy (cleanup : Label) : List (CompareOp × Node) → Emit Unit
  | [] => pure ()
  | [(op, n)] => do
    gate n (emitBy n)
    Emit.compare op.code
  | (op, n) :: rest => do
    gate n (emitBy n)
    Emit.dup
    Emit.rot3
    Emit.compare op.code
    Emit.jumpIfFalseOrPop cleanup
    emitLinksBy cleanup rest

def emitOperandsBy (junction : Junction) (done : Label) : List Node → Emit Unit
  | [] => pure ()
  | [n] => gate n (emitBy n)
  | n :: rest => do
    gate n (emitBy n)
    Emit.leave junction done
    emitOperandsBy junction done rest

/-- The code of steps in order. Steps that cannot be reached are left out, and the values of all
but the last are dropped. -/
def emitStepsBy : List Node → Emit Unit
  | [] => pure ()
  | [n] => gate n (emitBy n)
  | n :: rest => do
    gate n (emitBy n)
    if (← get).reachable then
      Emit.popEffect n.effect
      emitStepsBy rest

def emitBoundBy : Option Node → Emit Unit
  | none => Emit.loadNone
  | some n => gate n (emitBy n)

def emitStarBy : Option Node → Emit Unit
  | none => pure ()
  | some n => do
    gate n (emitBy n)
    Emit.listExtend

def emitKeywordsBy : List (Text × Node) → Emit Unit
  | [] => pure ()
  | (name, n) :: rest => do
    Emit.loadConst (.str name)
    gate n (emitBy n)
    emitKeywordsBy rest

/-- The code of a doubly starred argument, whose entries go to the dictionary of keywords. -/
def emitDoubleStarBy : Option Node → Emit Unit
  | none => pure ()
  | some n => do
    gate n (emitBy n)
    Emit.dictMerge

end

end

abbrev emit (n : Node) : Emit Unit := n.emitBy Emit.expression

abbrev emitAll (ns : List Node) : Emit Unit := emitAllBy Emit.expression ns

abbrev emitLinks (cleanup : Label) (links : List (CompareOp × Node)) : Emit Unit :=
  emitLinksBy Emit.expression cleanup links

abbrev emitOperands (junction : Junction) (done : Label) (operands : List Node) : Emit Unit :=
  emitOperandsBy Emit.expression junction done operands

abbrev emitSteps (steps : List Node) : Emit Unit := emitStepsBy Emit.expression steps

abbrev emitBound (bound : Option Node) : Emit Unit := emitBoundBy Emit.expression bound

abbrev emitStar (star : Option Node) : Emit Unit := emitStarBy Emit.expression star

abbrev emitKeywords (keywords : List (Text × Node)) : Emit Unit :=
  emitKeywordsBy Emit.expression keywords

abbrev emitDoubleStar (doubleStar : Option Node) : Emit Unit :=
  emitDoubleStarBy Emit.expression doubleStar

def emitInto (n : Node) : Emit Unit := Emit.expression n n.emit

end Node

end ExprBackend
