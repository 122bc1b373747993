import ExprBackend.Proofs.Compilation

/-! # Evaluation with transfers

The evaluation of an expression, extended to transfers: a transfer leaves the
expression it stands in with the value of its pair, and what has been assigned
before stays assigned. Where there is no transfer this is the evaluation itself.
-/

namespace ExprBackend

open List

/-- Evaluation that a transfer may leave. -/
abbrev Attempt := ExceptT Exit (StateM EvalState)

namespace Attempt

def ofEval {α : Type} (action : Eval α) : Attempt α := fun e =>
  match action e with
  | (.ok a, e') => (.ok a, e')
  | (.error f, e') => (.error (.failure f), e')

def ofRun {α : Type} (action : Run α) : Attempt α := ofEval (Eval.ofRun action)

def truthy (v : Value) : Attempt Bool := ofEval (Eval.truthy v)

def assign (name : Text) (v : Value) : Attempt Unit :=
  modify fun e => { e with environment := e.environment.set name v }

section OfEval

variable {α β : Type}

theorem eq_of_ofEval {q : Eval α} {result : Except Failure α} {e e' : EvalState}
    (h : ofEval q e = (result.mapError .failure, e')) : q e = (result, e') := by
  rw [ofEval] at h
  generalize q e = outcome at h
  rcases outcome with ⟨_ | a, _⟩ <;> cases result <;> cases h <;> rfl

theorem ofEval_pure (a : α) : ofEval (pure a) = pure a := rfl

theorem ofEval_bind (q : Eval α) (f : α → Eval β) :
    ofEval (q >>= f) = ofEval q >>= fun a => ofEval (f a) := by
  funext e
  simp only [ofEval, bind_apply]
  rcases q e with ⟨_ | a, e'⟩ <;> rfl

theorem ofRun_bind (q : Run α) (f : α → Run β) :
    ofRun (q >>= f) = ofRun q >>= fun a => ofRun (f a) := by
  funext e
  simp only [ofRun, ofEval, Eval.ofRun, bind_apply]
  rcases q e.heap with ⟨_ | a, h⟩ <;> rfl

theorem ofEval_ite (b : Bool) (q r : Eval α) :
    ofEval (if b then q else r) = if b then ofEval q else ofEval r := by
  cases b <;> rfl

theorem ofEval_assign (name : Text) (v : Value) :
    ofEval (modify fun e => { e with environment := e.environment.set name v }) = assign name v :=
  rfl

end OfEval

end Attempt

/-- How an evaluation takes parts of sequences and passes on arguments that are spread. -/
inductive Manner where
  /-- As they are. -/
  | plain
  /-- Gathered in slices, lists and dictionaries before, as code does. -/
  | gathering
  deriving DecidableEq

namespace Manner

def slice (manner : Manner) (v start stop step : Value) : Run Value :=
  match manner with
  | .plain => Run.slice v start stop step
  | .gathering => do
    let s ← Run.newSlice start stop step
    Run.index v s

/-- Whether the arguments of a call are gathered. -/
def gathers (manner : Manner) (star : Option Node) (keywords : List (Text × Node))
    (doubleStar : Option Node) : Bool :=
  manner == .gathering && !(star.isNone && doubleStar.isNone && keywords.isEmpty)

@[simp] theorem gathers_plain (star : Option Node) (keywords : List (Text × Node))
    (doubleStar : Option Node) : Manner.plain.gathers star keywords doubleStar = false := rfl

@[simp] theorem gathers_none (manner : Manner) : manner.gathers none [] none = false := by
  cases manner <;> rfl

end Manner

namespace Node

open Attempt

mutual

/-- The value of an expression that a transfer may leave. -/
def attempt (manner : Manner) (call : Caller) : Node → Attempt Value
  | .const v _ => return v
  | .var name => ofEval (Eval.name name)
  | .unary op operand => do
    let v ← attempt manner call operand
    ofRun (Run.unary op v)
  | .binary op left right => do
    let a ← attempt manner call left
    let b ← attempt manner call right
    ofRun (Run.binary op a b)
  | .compare subject links => do
    let v ← attempt manner call subject
    attemptLinks manner call (.bool true) v links
  | .logical junction operands => attemptOperands manner call junction operands
  | .cond test yes no => do
    let t ← attempt manner call test
    if ← truthy t then attempt manner call yes else attempt manner call no
  | .collection kind elements => do
    let values ← attemptAll manner call elements
    match kind with
    | .list => ofRun (Run.newList values)
    | .tuple => ofRun (Run.newTuple values)
    | .dict => ofRun (Run.buildDict values)
  | .subscript base index => do
    let b ← attempt manner call base
    let i ← attempt manner call index
    ofRun (Run.index b i)
  | .sliceObj start stop step => do
    let a ← attemptBound manner call start
    let b ← attemptBound manner call stop
    let c ← attemptBound manner call step
    ofRun (Run.newSlice a b c)
  | .slice base start stop step => do
    let v ← attempt manner call base
    let a ← attemptBound manner call start
    let b ← attemptBound manner call stop
    let c ← attemptBound manner call step
    ofRun (manner.slice v a b c)
  | .attr base name => do
    let v ← attempt manner call base
    ofRun (Run.attributeOf v name)
  | .call callee args star keywords doubleStar method => do
    let (function, receiver) ← match callee, method with
      | .attr base name, true => do
        let v ← attempt manner call base
        let (function, bound) ← ofRun (Run.method v name)
        pure (function, if bound then [v] else [])
      | callee, _ => do
        let function ← attempt manner call callee
        pure (function, [])
    let positional ← attemptAll manner call args
    if manner.gathers star keywords doubleStar then
      let list ← ofRun (Run.newList positional)
      let v ← attemptBound manner call star
      ofRun (if star.isSome then Perform.extending list v else pure ())
      let named ← attemptKeywords manner call keywords
      let dict ← ofRun (Run.buildDict (named.flatMap fun k => [.str k.name, k.value]))
      let w ← attemptBound manner call doubleStar
      ofRun (if doubleStar.isSome then Perform.merging dict w else pure ())
      ofRun (Perform.spreading list dict fun args named =>
        call function (receiver ++ args) named)
    else
      let starred ← attemptStar manner call star
      let named ← attemptKeywords manner call keywords
      let named ← attemptDoubleStar manner call named doubleStar
      ofRun (call function (receiver ++ positional ++ starred) named)
  | .store name value => do
    let v ← attempt manner call value
    assign name v
    return .none
  | .sequence steps => attemptSteps manner call steps
  | .next pair => do
    let v ← attempt manner call pair
    throw (.transfer v)

def attemptAll (manner : Manner) (call : Caller) : List Node → Attempt (List Value)
  | [] => return []
  | n :: rest => do
    let v ← attempt manner call n
    let vs ← attemptAll manner call rest
    return v :: vs

def attemptLinks (manner : Manner) (call : Caller) (result left : Value) :
    List (CompareOp × Node) → Attempt Value
  | [] => return result
  | (op, n) :: rest => do
    let right ← attempt manner call n
    let result ← ofRun (Run.compare op left right)
    if ← truthy result then attemptLinks manner call result right rest else return result

def attemptOperands (manner : Manner) (call : Caller) (junction : Junction) :
    List Node → Attempt Value
  | [] => return .none
  | [n] => attempt manner call n
  | n :: rest => do
    let v ← attempt manner call n
    if junction.endsWith (← truthy v) then return v else attemptOperands manner call junction rest

def attemptSteps (manner : Manner) (call : Caller) : List Node → Attempt Value
  | [] => return .none
  | [n] => attempt manner call n
  | n :: rest => do
    let _ ← attempt manner call n
    attemptSteps manner call rest

def attemptBound (manner : Manner) (call : Caller) : Option Node → Attempt Value
  | none => return .none
  | some n => attempt manner call n

def attemptStar (manner : Manner) (call : Caller) : Option Node → Attempt (List Value)
  | none => return []
  | some n => do
    let v ← attempt manner call n
    ofRun (Run.spreadArguments v)

def attemptKeywords (manner : Manner) (call : Caller) : List (Text × Node) → Attempt (List Keyword)
  | [] => return []
  | (name, n) :: rest => do
    let v ← attempt manner call n
    let others ← attemptKeywords manner call rest
    return ⟨name, v⟩ :: others

def attemptDoubleStar (manner : Manner) (call : Caller) (keywords : List Keyword) :
    Option Node → Attempt (List Keyword)
  | none => return keywords
  | some n => do
    let v ← attempt manner call n
    let spread ← ofRun (Run.spreadKeywords v)
    ofRun (Run.ofExcept (Eval.mergeKeywords keywords spread))

end

def attemptCallee (manner : Manner) (call : Caller) (callee : Node) (method : Bool) :
    Attempt (Value × List Value) :=
  match callee, method with
  | .attr base name, true => do
    let v ← attempt manner call base
    let (function, bound) ← ofRun (Run.method v name)
    pure (function, if bound then [v] else [])
  | callee, _ => do
    let function ← attempt manner call callee
    pure (function, [])

def attemptArguments (manner : Manner) (call : Caller) (args : List Node) (star : Option Node)
    (keywords : List (Text × Node)) (doubleStar : Option Node) (function : Value)
    (receiver : List Value) : Attempt Value := do
  let positional ← attemptAll manner call args
  if manner.gathers star keywords doubleStar then
    let list ← ofRun (Run.newList positional)
    let v ← attemptBound manner call star
    ofRun (if star.isSome then Perform.extending list v else pure ())
    let named ← attemptKeywords manner call keywords
    let dict ← ofRun (Run.buildDict (named.flatMap fun k => [.str k.name, k.value]))
    let w ← attemptBound manner call doubleStar
    ofRun (if doubleStar.isSome then Perform.merging dict w else pure ())
    ofRun (Perform.spreading list dict fun args named =>
      call function (receiver ++ args) named)
  else
    let starred ← attemptStar manner call star
    let named ← attemptKeywords manner call keywords
    let named ← attemptDoubleStar manner call named doubleStar
    ofRun (call function (receiver ++ positional ++ starred) named)

theorem attempt_call (manner : Manner) (call : Caller) (callee : Node) (args : List Node)
    (star : Option Node) (keywords : List (Text × Node)) (doubleStar : Option Node)
    (method : Bool) :
    attempt manner call (.call callee args star keywords doubleStar method) = (do
      let (function, receiver) ← attemptCallee manner call callee method
      attemptArguments manner call args star keywords doubleStar function receiver) := by
  cases callee <;> cases method <;>
    simp only [attempt, attemptCallee, attemptArguments, bind_assoc, pure_bind]

section Transferless

variable {call : Caller} {ns : List Node} {star doubleStar : Option Node}
  {keywords : List (Text × Node)}

/-- The extended evaluation of an expression is its evaluation. -/
def Evaluates (call : Caller) (n : Node) : Prop := n.attempt .plain call = ofEval (n.eval call)

theorem attemptAll_eq (h : ∀ m ∈ ns, m.Evaluates call) :
    attemptAll .plain call ns = ofEval (evalAll call ns) := by
  induction ns with
  | nil => rfl
  | cons n rest ih =>
    rw [forall_mem_cons] at h
    rw [attemptAll, evalAll, ofEval_bind, h.1, ih h.2]
    simp only [ofEval_bind, ofEval_pure]

theorem attemptLinks_eq {links : List (CompareOp × Node)}
    (h : ∀ m ∈ links.map Prod.snd, m.Evaluates call) (result left : Value) :
    attemptLinks .plain call result left links = ofEval (evalLinks call result left links) := by
  induction links generalizing result left with
  | nil => rfl
  | cons link rest ih =>
    rw [map_cons, forall_mem_cons] at h
    rw [attemptLinks, evalLinks, h.1]
    simp only [ofEval_bind, ofRun, truthy, ofEval_ite, ih h.2, ofEval_pure]

theorem attemptOperands_eq {junction : Junction} (h : ∀ m ∈ ns, m.Evaluates call) :
    attemptOperands .plain call junction ns = ofEval (evalOperands call junction ns) := by
  induction ns with
  | nil => rfl
  | cons n rest ih =>
    rw [forall_mem_cons] at h
    cases rest with
    | nil =>
      rw [attemptOperands, evalOperands]
      exact h.1
    | cons m rest =>
      rw [attemptOperands, evalOperands]
      · rw [h.1]
        simp only [ofEval_bind, truthy, ofEval_ite, ih h.2, ofEval_pure]
      · simp
      · simp

theorem attemptSteps_eq (h : ∀ m ∈ ns, m.Evaluates call) :
    attemptSteps .plain call ns = ofEval (evalSteps call ns) := by
  induction ns with
  | nil => rfl
  | cons n rest ih =>
    rw [forall_mem_cons] at h
    cases rest with
    | nil =>
      rw [attemptSteps, evalSteps]
      exact h.1
    | cons m rest =>
      rw [attemptSteps, evalSteps]
      · rw [ofEval_bind, h.1, ih h.2]
      · simp
      · simp

theorem attemptBound_eq {bound : Option Node} (h : ∀ m ∈ bound.toList, m.Evaluates call) :
    attemptBound .plain call bound = ofEval (evalBound call bound) := by
  cases bound with
  | none => rfl
  | some n => exact h n (by simp)

theorem attemptStar_eq (h : ∀ m ∈ star.toList, m.Evaluates call) :
    attemptStar .plain call star = ofEval (evalStar call star) := by
  cases star with
  | none => rfl
  | some n =>
    rw [attemptStar, evalStar, ofEval_bind, h n (by simp)]
    rfl

theorem attemptKeywords_eq (h : ∀ m ∈ keywords.map Prod.snd, m.Evaluates call) :
    attemptKeywords .plain call keywords = ofEval (evalKeywords call keywords) := by
  induction keywords with
  | nil => rfl
  | cons keyword rest ih =>
    rw [map_cons, forall_mem_cons] at h
    rw [attemptKeywords, evalKeywords, ofEval_bind, h.1, ih h.2]
    simp only [ofEval_bind, ofEval_pure]

theorem attemptDoubleStar_eq (h : ∀ m ∈ doubleStar.toList, m.Evaluates call)
    (keywords : List Keyword) : attemptDoubleStar .plain call keywords doubleStar =
      ofEval (evalDoubleStar call keywords doubleStar) := by
  cases doubleStar with
  | none => rfl
  | some n =>
    rw [attemptDoubleStar, evalDoubleStar, ofEval_bind, h n (by simp)]
    simp only [ofEval_bind, ofRun]

/-- A call without transfers. A method is found along with its receiver. -/
theorem evaluates_call {callee : Node} {args : List Node} {method : Bool}
    (hcallee : callee.Evaluates call) (hobject : ∀ m ∈ callee.children, m.Evaluates call)
    (hargs : ∀ m ∈ args, m.Evaluates call) (hstar : ∀ m ∈ star.toList, m.Evaluates call)
    (hkeywords : ∀ m ∈ keywords.map Prod.snd, m.Evaluates call)
    (hdoubleStar : ∀ m ∈ doubleStar.toList, m.Evaluates call) :
    (Node.call callee args star keywords doubleStar method).Evaluates call := by
  have hfunction : callee.attempt .plain call = ofEval (callee.eval call) := hcallee
  rw [Evaluates]
  by_cases hmethod : ∃ object name, callee = .attr object name ∧ method = true
  · obtain ⟨object, name, rfl, rfl⟩ := hmethod
    have hfound : object.attempt .plain call = ofEval (object.eval call) :=
      hobject object (by simp)
    simp only [attempt, eval, hfound, Manner.gathers_plain, attemptAll_eq hargs,
      attemptStar_eq hstar, attemptKeywords_eq hkeywords, attemptDoubleStar_eq hdoubleStar, ofRun,
      ofEval_bind, ofEval_pure, Bool.false_eq_true, if_false]
  · rw [attempt, eval, hfunction]
    · simp only [attemptAll_eq hargs, attemptStar_eq hstar, attemptKeywords_eq hkeywords,
        attemptDoubleStar_eq hdoubleStar, ofRun, ofEval_bind, ofEval_pure,
        Manner.gathers_plain, Bool.false_eq_true, if_false]
    · exact fun object name heq htrue => hmethod ⟨object, name, heq, htrue⟩
    · exact fun object name heq htrue => hmethod ⟨object, name, heq, htrue⟩

/-- An expression without transfers is evaluated as ever. -/
theorem evaluates (n : Node) : n.Everywhere (fun m => m.isNext = false) → n.Evaluates call := by
  induction n using descent with
  | h n ih ihBelow =>
  intro hplain
  have hoperands : ∀ m ∈ n.children, m.Evaluates call := fun m hm =>
    ih m hm ((everywhere_iff.mp hplain).2 m hm)
  rw [Evaluates]
  cases n with
  | const v signature => rfl
  | var name =>
    rw [attempt, eval]
  | unary op operand =>
    rw [attempt, eval, ofEval_bind, hoperands operand (by simp)]
    rfl
  | binary op left right =>
    rw [attempt, eval, hoperands left (by simp), hoperands right (by simp)]
    simp only [ofEval_bind, ofRun]
  | compare subject links =>
    rw [children, forall_mem_cons] at hoperands
    rw [attempt, eval, ofEval_bind, hoperands.1]
    simp only [attemptLinks_eq hoperands.2]
  | logical junction operands =>
    rw [attempt, eval]
    exact attemptOperands_eq hoperands
  | cond test yes no =>
    rw [attempt, eval, hoperands test (by simp), hoperands yes (by simp), hoperands no (by simp)]
    simp only [ofEval_bind, ofEval_ite, truthy]
  | collection kind elements =>
    have hall : attemptAll .plain call elements = ofEval (evalAll call elements) :=
      attemptAll_eq hoperands
    rw [attempt, eval, ofEval_bind, hall]
    cases kind <;> rfl
  | subscript base index =>
    rw [attempt, eval, hoperands base (by simp), hoperands index (by simp)]
    simp only [ofEval_bind, ofRun]
  | sliceObj start stop step =>
    simp only [children, present_cons, present_nil, append_nil, forall_mem_append]
      at hoperands
    rw [attempt, eval, attemptBound_eq hoperands.1, attemptBound_eq hoperands.2.1,
      attemptBound_eq hoperands.2.2]
    simp only [ofEval_bind, ofRun]
  | slice base start stop step =>
    simp only [children, present_cons, present_nil, append_nil, forall_mem_append,
      forall_mem_cons] at hoperands
    rw [attempt, eval, hoperands.1, attemptBound_eq hoperands.2.1, attemptBound_eq hoperands.2.2.1,
      attemptBound_eq hoperands.2.2.2]
    simp only [ofEval_bind, ofRun, Manner.slice]
  | attr base name =>
    rw [attempt, eval, ofEval_bind, hoperands base (by simp)]
    rfl
  | call callee args star keywords doubleStar method =>
    have hmem : callee ∈ (Node.call callee args star keywords doubleStar method).children := by
      simp
    have hobject : ∀ m ∈ callee.children, m.Evaluates call := fun m hm =>
      ihBelow callee hmem m hm
        ((everywhere_iff.mp ((everywhere_iff.mp hplain).2 callee hmem)).2 m hm)
    simp only [children, present_cons, present_nil, append_nil, forall_mem_append,
      forall_mem_cons, cons_append] at hoperands
    exact evaluates_call hoperands.1 hobject hoperands.2.1.1.1 hoperands.2.1.1.2 hoperands.2.1.2
      hoperands.2.2
  | store name value =>
    rw [attempt, eval, hoperands value (by simp)]
    simp only [ofEval_bind, ofEval_pure, ofEval_assign]
  | sequence steps =>
    rw [attempt, eval]
    exact attemptSteps_eq hoperands
  | next pair => cases (everywhere_iff.mp hplain).1

end Transferless

end Node

end ExprBackend
