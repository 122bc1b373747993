import ExprBackend.Dispatch.Generate
import ExprBackend.Proofs.Invocation

/-! # Walking decision trees

A decision tree is walked pass by pass. A walk stands at a pair of action and
argument, with current values of the parameters. Action zero ends it with a call
of the argument. A registered action is carried out and gives the next pair, be
it with its value or with a transfer from its middle; everything else is no action.

The code of a generated function walks too, with all it knows in local names. What
it performs in a pass is what the walk does.
-/

namespace ExprBackend

open List

variable {params : List Text} {s : Scene} {t : ActionTable} {σ τ : Type} {R : σ → τ → Prop}

/-- What a pass leads to. -/
inductive Turn (σ : Type) where
  | again (state : σ)
  | over (result : Except Failure Value) (heap : Heap)

namespace Turn

/-- So many passes, fewer if the walk is over before. -/
def passes (pass : σ → Turn σ) : Nat → σ → Turn σ
  | 0, state => .again state
  | count + 1, state =>
    match pass state with
    | .again next => passes pass count next
    | .over result h => .over result h

def result? : Turn σ → Option (Except Failure Value)
  | .again _ => none
  | .over result _ => some result

/-- Goes on with the pair that an action gives by its value or by a transfer. -/
def carry (next : Value → EvalState → Turn σ) : Except Exit Value × EvalState → Turn σ
  | (.ok pair, e) | (.error (.transfer pair), e) => next pair e
  | (.error (.failure f), e) => .over (.error f) e.heap

/-- Two turns are of the same kind, and lead to related states or to the same end. -/
inductive Rel (R : σ → τ → Prop) : Turn σ → Turn τ → Prop where
  | again {s : σ} {t : τ} : R s t → Rel R (.again s) (.again t)
  | over {result : Except Failure Value} {h : Heap} : Rel R (.over result h) (.over result h)

/-- Walks whose single passes are related are so for any number of passes. -/
theorem Rel.passes {first : σ → Turn σ} {second : τ → Turn τ}
    (hpass : ∀ s t, R s t → Rel R (first s) (second t)) (count : Nat) {s : σ} {t : τ} (h : R s t) :
    Rel R (Turn.passes first count s) (Turn.passes second count t) := by
  induction count generalizing s t with
  | zero => exact .again h
  | succ count ih =>
    have hturn := hpass s t h
    rw [Turn.passes, Turn.passes]
    generalize first s = x at hturn
    generalize second t = y at hturn
    cases hturn with
    | again hnext => exact ih hnext
    | «over» => exact .over

end Turn

/-- The names that actions can use as locals: the parameters, the action and the argument. -/
def walkNames (params : List Text) : List Text := params ++ [actionName, argumentName]

/-- Where the walk of a decision tree stands. -/
structure Walk where
  action : Value
  argument : Value
  values : List Value
  heap : Heap

variable {w : Walk}

namespace Walk

/-- The environment in which an action is carried out. -/
def environment (globals : Bindings) (params : List Text) (w : Walk) : Bindings :=
  globals.setAll ((walkNames params).zip (w.values ++ [w.action, w.argument]))

/-- Goes on with a pair, or fails if it is none. -/
def follow (pair : Value) (values : List Value) (h : Heap) : Turn Walk :=
  match h.items? pair with
  | some [action, argument] => .again ⟨action, argument, values, h⟩
  | _ => .over (.error (.runtime (.unpack (h.text pair) 2))) h

/-- Goes on with a pair and the values that the parameters have then. -/
def followFrom (params : List Text) (pair : Value) (e : EvalState) : Turn Walk :=
  follow pair (params.map fun name => (e.environment.get? name).getD .none) e.heap

def carryOut (call : Caller) (globals : Bindings) (params : List Text) (n : Node) (w : Walk) :
    Turn Walk :=
  .carry (followFrom params) (n.attempt .plain call ⟨w.heap, w.environment globals params⟩)

/-- Refuses what is no action; the pair is put together for the message. -/
def refuse {σ : Type} (action argument : Value) (h : Heap) : Turn σ :=
  match Run.newTuple [action, argument] h with
  | (_, h') => .over (.error (.error (.invalidAction (h'.text action) (h'.text argument)))) h'

/-- Goes by the action: zero is the end of the walk, and the number of an action is looked up. -/
def choose {σ : Type} (call : Caller) (t : ActionTable) (action argument : Value)
    (values : List Value) (h : Heap) (carryOut : Node → Turn σ) : Turn σ :=
  match action with
  | .int i =>
    if i.toInt = 0 then
      match call argument values [] h with
      | (result, h') => .over result h'
    else
      match t.action? i.toInt with
      | some n => carryOut n
      | none => refuse action argument h
  | _ => refuse action argument h

def pass (call : Caller) (globals : Bindings) (t : ActionTable) (params : List Text) (w : Walk) :
    Turn Walk :=
  choose call t w.action w.argument w.values w.heap fun n => w.carryOut call globals params n

def passes (call : Caller) (globals : Bindings) (t : ActionTable) (params : List Text)
    (count : Nat) (w : Walk) : Turn Walk :=
  Turn.passes (pass call globals t params) count w

theorem refuse_eq {σ : Type} (action argument : Value) (h : Heap) :
    ∃ pair h', Run.newTuple [action, argument] h = (.ok pair, h') ∧
      (refuse action argument h : Turn σ) =
        .over (.error (.error (Machine.invalidAction h' pair))) h' := by
  refine ⟨.tuple h.cells.size, (h.alloc (.tuple [action, argument])).2, rfl, ?_⟩
  have hitems : (h.alloc (.tuple [action, argument])).2.items? (.tuple h.cells.size) =
      some [action, argument] := by
    simp [Heap.items?, Heap.tuple, Heap.alloc]
  rw [Machine.invalidAction, hitems]
  rfl

/-- A choice leads to the same wherever the actions do. -/
theorem rel_choose (call : Caller) (action argument : Value) (values : List Value) (h : Heap)
    {first : Node → Turn σ} {second : Node → Turn τ}
    (hactions : ∀ n ∈ t.actions.toList, Turn.Rel R (first n) (second n)) :
    Turn.Rel R (choose call t action argument values h first)
      (choose call t action argument values h second) := by
  cases action with
  | int i =>
    simp only [choose]
    split
    next => exact .over
    next =>
      cases hn : t.action? i.toInt with
      | none => exact .over
      | some n =>
        refine hactions n ?_
        rw [ActionTable.action?] at hn
        split at hn
        · exact mem_of_getElem? (by simpa using hn)
        · cases hn
  | _ => exact .over

end Walk

/-! ## Passes of the code -/

namespace Scene

/-- What code does with the value or the transfer of an action. -/
def goOn (outcome : Except Exit Value × Scene) : Turn Scene :=
  match outcome with
  | (.ok pair, s) | (.error (.transfer pair), s) =>
    match Perform.handOver pair s with
    | (.ok (), s') => .again s'
    | (.error (.failure f), s') => .over (.error f) s'.heap
    | (.error (.transfer _), s') => .again s'
  | (.error (.failure f), s) => .over (.error f) s.heap

/-- What code does in one pass, in the locals of the names that actions can use. -/
def pass (call : Caller) (globals : Bindings) (t : ActionTable) (params : List Text) (s : Scene) :
    Turn Scene :=
  Walk.choose call t (s.locals actionName) (s.locals argumentName) (params.map s.locals) s.heap
    fun n => goOn (n.perform call globals Gate.opened ⟨walkNames params, []⟩ s)

theorem handOver_eq (pair : Value) (s : Scene) :
    Perform.handOver pair s =
      match s.heap.items? pair with
      | some [action, argument] => (.ok (), ⟨s.heap, fun name =>
        if name = argumentName then argument
        else if name = actionName then action
        else s.locals name⟩)
      | _ => (.error (.failure (.runtime (.unpack (s.heap.text pair) 2))), s) := by
  rw [Perform.handOver, Perform.unpack, bind_apply, bind_apply, get_apply]
  simp only
  cases s.heap.items? pair with
  | none => rfl
  | some items =>
    rcases items with _ | ⟨action, _ | ⟨argument, _ | _⟩⟩ <;> rfl

/-- A scene in which the locals are those of a walk. -/
structure Shows (params : List Text) (s : Scene) (w : Walk) : Prop where
  heap : s.heap = w.heap
  action : s.locals actionName = w.action
  argument : s.locals argumentName = w.argument
  values : params.map s.locals = w.values

theorem Shows.map_locals (h : s.Shows params w) :
    (walkNames params).map s.locals = w.values ++ [w.action, w.argument] := by
  rw [walkNames, map_append, h.values, map_cons, map_cons, map_nil, h.action, h.argument]

theorem ne_of_mem_params (hnodup : (walkNames params).Nodup) {name : Text} (hname : name ∈ params) :
    name ≠ actionName ∧ name ≠ argumentName := by
  rw [walkNames, nodup_append] at hnodup
  exact ⟨fun heq => hnodup.2.2 name hname actionName (by simp) heq,
    fun heq => hnodup.2.2 name hname argumentName (by simp) heq⟩

/-- The locals after a pair has been handed over. -/
theorem shows_handed (hnodup : (walkNames params).Nodup) {values : List Value}
    (hvalues : params.map s.locals = values) (action argument : Value) :
    Shows params ⟨s.heap, fun name => if name = argumentName then argument
      else if name = actionName then action else s.locals name⟩
      ⟨action, argument, values, s.heap⟩ := by
  refine ⟨rfl, ?_, ?_, ?_⟩
  · have hne : actionName ≠ argumentName := by decide
    simp only [hne, if_false, if_true]
  · simp only [if_true]
  · rw [← hvalues]
    refine map_congr_left fun name hname => ?_
    obtain ⟨haction, hargument⟩ := ne_of_mem_params hnodup hname
    simp only [haction, hargument, if_false]

/-- A pair that code hands over is one that a walk goes on with. -/
theorem rel_handOver (hnodup : (walkNames params).Nodup) (pair : Value) {values : List Value}
    (hvalues : params.map s.locals = values) :
    Turn.Rel (Shows params) (goOn (.ok pair, s)) (Walk.follow pair values s.heap) := by
  rw [goOn, handOver_eq, Walk.follow]
  cases hitems : s.heap.items? pair with
  | none => exact .over
  | some items =>
    rcases items with _ | ⟨action, _ | ⟨argument, _ | _⟩⟩
    · exact .over
    · exact .over
    · exact .again (shows_handed hnodup hvalues action argument)
    · exact .over

end Scene

/-- The expressions that can be actions: their operands have values, their arguments are not spread,
and they assign nothing but parameters. -/
structure Node.Walkable (params : List Text) (n : Node) : Prop where
  built : n.Everywhere Built
  valued : n.Everywhere Valued
  regular : n.Everywhere Regular
  assigned : n.assigned ⊆ params

namespace Scene

variable {call : Caller} {globals : Bindings}

/-- The locals of a walk are its environment. -/
theorem Shows.agrees (h : s.Shows params w) (hnodup : (walkNames params).Nodup) :
    s.Agrees globals ⟨walkNames params, walkNames params⟩
      ⟨w.heap, w.environment globals params⟩ := by
  have hlength : (w.values ++ [w.action, w.argument]).length = (walkNames params).length := by
    rw [← h.map_locals, length_map]
  have hget := Bindings.get?_setAll globals hnodup _ hlength
  refine ⟨h.heap.symm, fun name hname => ?_, fun name hname => ?_⟩
  · rw [Walk.environment, hget, if_pos hname, ← h.map_locals]
    have hlookup : ∀ names : List Text, name ∈ names →
        ((names.zip (names.map s.locals)).lookup name).getD .none = s.locals name := by
      intro names
      induction names with
      | nil => exact fun hmem => absurd hmem not_mem_nil
      | cons first rest ih =>
        intro hmem
        rw [map_cons, zip_cons_cons, Bindings.lookup_cons]
        by_cases heq : name = first
        · simp [heq]
        · rw [if_neg heq]
          exact ih ((mem_cons.mp hmem).resolve_left heq)
    rw [hlookup _ hname]
  · rw [Walk.environment, hget, if_neg hname]

/-- Code that carries out an action goes on as its evaluation does, in either manner. -/
theorem Agrees.rel_carry {n : Node} {manner : Manner} {e : EvalState}
    {next : Value → EvalState → Turn σ} {R : Scene → σ → Prop}
    (hmanner : manner = .plain → n.Everywhere Node.Regular) (hbuilt : n.Everywhere Node.Built)
    (hassigned : n.assigned ⊆ params)
    (h : s.Agrees globals ⟨walkNames params, walkNames params⟩ e)
    (hnext : ∀ (pair : Value) {s' : Scene} {e' : EvalState},
      s'.Agrees globals ⟨walkNames params, walkNames params⟩ e' →
      Turn.Rel R (goOn (.ok pair, s')) (next pair e')) :
    Turn.Rel R (goOn (n.perform call globals Gate.opened ⟨walkNames params, []⟩ s))
      (Turn.carry next (n.attempt manner call e)) := by
  have hlocal : n.assigned ⊆ walkNames params := Subset.trans hassigned (subset_append_left _ _)
  have hafter : walkNames params ++ n.assigned ⊆ walkNames params :=
    append_subset.mpr ⟨Subset.refl _, hlocal⟩
  have htracked : n.Tracked manner call globals := n.tracked hmanner hbuilt
  have halike := htracked ⟨walkNames params, []⟩ ⟨walkNames params, walkNames params⟩
    ⟨Subset.refl _, Subset.refl _⟩ (n.settles_of_subset _ hafter) s e h
  generalize n.perform call globals Gate.opened ⟨walkNames params, []⟩ s = outcome at halike ⊢
  generalize n.attempt manner call e = result at halike ⊢
  cases halike with
  | value hagrees => exact hnext _ (hagrees.weaken hafter (subset_append_left _ _))
  | failure hheap =>
    rw [goOn, ← hheap]
    exact .over
  | transfer hagrees => exact hnext _ (hagrees.weaken hafter (Subset.refl _))

/-- A pass of the code is a pass of the walk. -/
theorem Shows.rel_pass (ht : ∀ n ∈ t.actions.toList, n.Walkable params)
    (hnodup : (walkNames params).Nodup) (h : s.Shows params w) :
    Turn.Rel (Shows params) (s.pass call globals t params) (w.pass call globals t params) := by
  rw [pass, Walk.pass, h.action, h.argument, h.values, h.heap]
  refine Walk.rel_choose call _ _ _ _ fun n hn => (h.agrees hnodup).rel_carry
    (fun _ => (ht n hn).regular) (ht n hn).built (ht n hn).assigned fun pair s' e' hagrees => ?_
  rw [Walk.followFrom, hagrees.heap]
  refine rel_handOver hnodup pair (map_congr_left fun name hname => ?_)
  rw [hagrees.sure name (mem_append_left _ hname), Option.getD_some]

end Scene

end ExprBackend
