import ExprBackend.Proofs.Assembly
import ExprBackend.Proofs.Growth
import ExprBackend.Proofs.Perform
import Mathlib.Data.List.Nodup

/-! # Executions of assembled code

A run of the machine is a chain of steps from frame to frame. A setting fixes the
code that runs and what surrounds it; in a setting, the frame of an activation is
given by a place in the body of the code, the values of the local names and the
operand stack. Each instruction acts on the stack and on the scene.
-/

namespace ExprBackend

open List Machine

variable {e : Failure} {h' : Heap} {i k m n : Nat} {name : Text} {result : Except Failure Value}
  {s : Scene} {st : List Value} {v : Value}

namespace Machine

/-- So many steps lead from one frame and heap to another. -/
inductive Reaches (step : Frame → Run Progress) : Nat → Frame → Heap → Frame → Heap → Prop where
  | refl (f : Frame) (h : Heap) : Reaches step 0 f h f h
  | head {n : Nat} {f g f' : Frame} {h h1 h' : Heap} : step f h = (.ok (.running g), h1) →
      Reaches step n g h1 f' h' → Reaches step (n + 1) f h f' h'

variable {step : Frame → Run Progress} {f f' f'' : Frame} {h h'' : Heap} {limit : Nat}

theorem Reaches.single (hstep : step f h = (.ok (.running f'), h')) : Reaches step 1 f h f' h' :=
  .head hstep (.refl f' h')

theorem Reaches.trans (hfirst : Reaches step m f h f' h') (hrest : Reaches step n f' h' f'' h'') :
    Reaches step (m + n) f h f'' h'' := by
  induction hfirst with
  | refl =>
    rw [Nat.zero_add]
    exact hrest
  | head hstep _ ih =>
    rw [Nat.add_right_comm]
    exact .head hstep (ih hrest)

/-- A run goes on from wherever steps have led it. -/
theorem loop_of_reaches (hreaches : Reaches step n f h f' h') (limit : Nat) :
    loop step (n + limit) f h = loop step limit f' h' := by
  induction hreaches with
  | refl => rw [Nat.zero_add]
  | head hstep _ ih =>
    rw [Nat.add_right_comm, loop, bind_of_ok hstep]
    exact ih

/-- So many steps lead to a frame whose step ends the activation. -/
def Finishes (step : Frame → Run Progress) (n : Nat) (f : Frame) (h : Heap)
    (result : Except Failure Value) (h' : Heap) : Prop :=
  ∃ g h1, Reaches step n f h g h1 ∧ step g h1 = (result.map .returned, h')

theorem Reaches.finishes (hfirst : Reaches step m f h f' h')
    (hrest : Finishes step n f' h' result h'') : Finishes step (m + n) f h result h'' := by
  obtain ⟨g, h1, hreaches, hstep⟩ := hrest
  exact ⟨g, h1, hfirst.trans hreaches, hstep⟩

theorem loop_of_finishes (hfinishes : Finishes step n f h result h') (hlimit : n < limit) :
    loop step limit f h = (result, h') := by
  obtain ⟨g, h1, hreaches, hstep⟩ := hfinishes
  obtain ⟨rest, rfl⟩ : ∃ rest, limit = n + (rest + 1) := ⟨limit - n - 1, by omega⟩
  rw [loop_of_reaches hreaches, loop]
  cases result with
  | ok v =>
    rw [bind_of_ok hstep]
    rfl
  | error e => rw [bind_of_error hstep]

/-- A run that is given fewer steps than lead somewhere does not end. -/
theorem loop_of_reaches_lt (hreaches : Reaches step n f h f' h') (hlimit : limit ≤ n) :
    ∃ h1, loop step limit f h = (.error .exhausted, h1) := by
  induction hreaches generalizing limit with
  | refl =>
    obtain rfl : limit = 0 := by omega
    exact ⟨_, rfl⟩
  | head hstep _ ih =>
    cases limit with
    | zero => exact ⟨_, rfl⟩
    | succ limit =>
      rw [loop, bind_of_ok hstep]
      exact ih (by omega)

end Machine

/-- Code that runs, and what surrounds it. -/
structure Setting where
  call : Caller
  closure : Closure
  code : Code
  chunk : Chunk
  assembled : Assembled code chunk
  nodup : code.locals.Nodup
  locals_le : code.locals.length ≤ 65536

namespace Setting

variable (M : Setting)

def step : Machine.Frame → Run Machine.Progress := Machine.step M.call M.closure M.chunk

/-- The frame of an activation at a place in the body. -/
def frame (k : Nat) (locals : Text → Value) (stack : List Value) : Machine.Frame :=
  ⟨(M.code.locals.map locals).toArray, stack, M.code.place k⟩

def Runs (n : Nat) (k : Nat) (st : List Value) (s : Scene) (k' : Nat) (st' : List Value)
    (s' : Scene) : Prop :=
  Machine.Reaches M.step n (M.frame k s.locals st) s.heap (M.frame k' s'.locals st') s'.heap

def Finishes (n : Nat) (k : Nat) (st : List Value) (s : Scene) (result : Except Failure Value)
    (h' : Heap) : Prop :=
  Machine.Finishes M.step n (M.frame k s.locals st) s.heap result h'

def Stops (n : Nat) (k : Nat) (st : List Value) (s : Scene) (e : Failure) (h' : Heap) : Prop :=
  ∃ f h, Machine.Reaches M.step n (M.frame k s.locals st) s.heap f h ∧ M.step f h = (.error e, h')

variable {M} {k' : Nat} {st' : List Value} {s' : Scene} {locals : Text → Value}

theorem Runs.trans {k'' : Nat} {st'' : List Value} {s'' : Scene}
    (hfirst : M.Runs m k st s k' st' s') (hrest : M.Runs n k' st' s' k'' st'' s'') :
    M.Runs (m + n) k st s k'' st'' s'' :=
  Machine.Reaches.trans hfirst hrest

theorem Runs.stops (hfirst : M.Runs m k st s k' st' s') (hrest : M.Stops n k' st' s' e h') :
    M.Stops (m + n) k st s e h' := by
  obtain ⟨f, h, hreaches, hstep⟩ := hrest
  exact ⟨f, h, Machine.Reaches.trans hfirst hreaches, hstep⟩

theorem Runs.finishes (hfirst : M.Runs m k st s k' st' s')
    (hrest : M.Finishes n k' st' s' result h') : M.Finishes (m + n) k st s result h' :=
  Machine.Reaches.finishes hfirst hrest

theorem Stops.finishes (h : M.Stops n k st s e h') : M.Finishes n k st s (.error e) h' := h

theorem frame_stack : (M.frame k locals st).stack = st := rfl

/-- The value of a local name is in its slot. -/
theorem frame_locals_getElem? (h : M.code.locals[i]? = some name) :
    (M.frame k locals st).locals[i]? = some (locals name) := by
  simp [frame, h]

/-- A local name gets a value by a change of its slot. -/
theorem frame_locals_set (h : M.code.locals[i]? = some name) :
    (M.frame k locals st).locals.setIfInBounds i v =
      (M.code.locals.map fun other => if other = name then v else locals other).toArray := by
  apply Array.ext_getElem?
  intro j
  rw [frame, Array.getElem?_setIfInBounds]
  simp only [size_toArray, length_map, getElem?_toArray, getElem?_map]
  by_cases hij : i = j
  · subst hij
    rw [if_pos rfl, if_pos (List.getElem?_eq_some_iff.mp h).1, h]
    simp
  · rw [if_neg hij]
    cases hother : M.code.locals[j]? with
    | none => rfl
    | some other =>
      have hne : other ≠ name := fun heq => hij ((List.getElem?_inj
        (List.getElem?_eq_some_iff.mp h).1 M.nodup).mp (by rw [h, hother, heq]))
      simp [hne]

end Setting

/-! ## What instructions do to the stack -/

namespace Action

def underflow {α : Type} : Perform α := throw (.failure (.fault .stackUnderflow))

def push (v : Value) (st : List Value) : Perform (List Value) := return v :: st

def drop : List Value → Perform (List Value)
  | _ :: st => return st
  | [] => underflow

def dup : List Value → Perform (List Value)
  | v :: st => return v :: v :: st
  | [] => underflow

def rot2 : List Value → Perform (List Value)
  | a :: b :: st => return b :: a :: st
  | _ => underflow

def rot3 : List Value → Perform (List Value)
  | c :: b :: a :: st => return b :: a :: c :: st
  | _ => underflow

/-- Replaces the top by the result of an operation on it. -/
def onTop (f : Value → Run Value) : List Value → Perform (List Value)
  | v :: st => do return (← Perform.ofRun (f v)) :: st
  | [] => underflow

def onTwo (f : Value → Value → Run Value) : List Value → Perform (List Value)
  | b :: a :: st => do return (← Perform.ofRun (f a b)) :: st
  | _ => underflow

def onThree (f : Value → Value → Value → Run Value) : List Value → Perform (List Value)
  | c :: b :: a :: st => do return (← Perform.ofRun (f a b c)) :: st
  | _ => underflow

/-- Replaces a number of values by the result of an operation on them, the deepest first. -/
def onMany (count : Nat) (f : List Value → Run Value) (st : List Value) : Perform (List Value) :=
  if count ≤ st.length then
    do return (← Perform.ofRun (f (st.take count).reverse)) :: st.drop count
  else underflow

def loadLocal (name : Text) (st : List Value) : Perform (List Value) := do
  return (← get).locals name :: st

def storeLocal (name : Text) : List Value → Perform (List Value)
  | v :: st => do
    Perform.assign name v
    return st
  | [] => underflow

def loadGlobal (globals : Bindings) (name : Text) (st : List Value) : Perform (List Value) :=
  match globals.get? name with
  | some v => return v :: st
  | none => throw (.failure (.error (.unresolved name)))

def loadMethod (name : Text) : List Value → Perform (List Value)
  | v :: st => do
    let (callee, bound) ← Perform.ofRun (Run.method v name)
    return (if bound then v else .noReceiver) :: callee :: st
  | [] => underflow

def call (call : Caller) (count : Nat) (st : List Value) : Perform (List Value) :=
  if count ≤ st.length then
    match st.drop count with
    | callee :: rest => do
      return (← Perform.ofRun (call callee (st.take count).reverse [])) :: rest
    | [] => underflow
  else underflow

def callMethod (call : Caller) (count : Nat) (st : List Value) : Perform (List Value) :=
  if count ≤ st.length then
    match st.drop count with
    | receiver :: callee :: rest => do
      return (← Perform.ofRun (call callee
        (withReceiver receiver (st.take count).reverse) [])) :: rest
    | _ => underflow
  else underflow

/-- Calls a function with a list of arguments and a dictionary of keywords, and behind a receiver if
it is a method. -/
def callEx (call : Caller) (method : Bool) : List Value → Perform (List Value)
  | dict :: list :: rest =>
    match method, rest with
    | true, receiver :: callee :: st => do
      return (← Perform.callSpread call callee (some receiver) list dict) :: st
    | false, callee :: st => do
      return (← Perform.callSpread call callee none list dict) :: st
    | _, _ => underflow
  | _ => underflow

def unpack (count : Nat) : List Value → Perform (List Value)
  | v :: st => do
    let items ← Perform.unpack count v
    return items ++ st
  | [] => underflow

def listExtend : List Value → Perform (List Value)
  | v :: list :: st => do
    Perform.extend list v
    return list :: st
  | _ => underflow

def dictMerge : List Value → Perform (List Value)
  | v :: dict :: st => do
    Perform.merge dict v
    return dict :: st
  | _ => underflow

end Action

namespace Setting

variable {M : Setting} {operand count : Nat} {op : Opcode}
  {action : List Value → Perform (List Value)}

/-- What the machine makes of an action that ends at a place. -/
inductive Outcome (M : Setting) (k : Nat) :
    Except Exit (List Value) × Scene → Except Failure Machine.Progress × Heap → Prop where
  | running {st : List Value} {s : Scene} :
      Outcome M k (.ok st, s) (.ok (.running (M.frame k s.locals st)), s.heap)
  | failed {e : Failure} {s : Scene} : Outcome M k (.error (.failure e), s) (.error e, s.heap)

/-- An operation does to a stack that is high enough what an action says. -/
def Executes (M : Setting) (op : Opcode) (operand reads : Nat)
    (action : List Value → Perform (List Value)) : Prop :=
  ∀ k st s, reads ≤ st.length → M.Outcome k (action st s)
    (execute M.call M.closure M.chunk op operand (M.frame k s.locals st) s.heap)

theorem outcome_pure : M.Outcome k ((pure st : Perform (List Value)) s)
      ((pure (.running (M.frame k s.locals st)) : Run Machine.Progress) s.heap) :=
  .running

theorem outcome_throw : M.Outcome k ((throw (.failure e) : Perform (List Value)) s)
      ((throw e : Run Machine.Progress) s.heap) :=
  .failed

/-- An operation on the heap. -/
theorem outcome_run {α : Type} (g : Run α) (post : α → List Value) :
    M.Outcome k ((do let a ← Perform.ofRun g; pure (post a) : Perform (List Value)) s)
      ((do let a ← g; pure (.running (M.frame k s.locals (post a))) : Run Machine.Progress)
        s.heap) := by
  rw [bind_apply, bind_apply, Perform.ofRun]
  rcases g s.heap with ⟨_ | a, h⟩
  · exact .failed
  · exact .running

/-- Takes the stacks that are high enough apart. -/
theorem executes_one (h : ∀ k v st s, M.Outcome k (action (v :: st) s)
      (execute M.call M.closure M.chunk op operand (M.frame k s.locals (v :: st)) s.heap)) :
    M.Executes op operand 1 action := by
  intro k st s hst
  match st, hst with
  | v :: st, _ => exact h k v st s

theorem executes_two (h : ∀ k b a st s, M.Outcome k (action (b :: a :: st) s)
      (execute M.call M.closure M.chunk op operand (M.frame k s.locals (b :: a :: st))
        s.heap)) : M.Executes op operand 2 action := by
  intro k st s hst
  match st, hst with
  | b :: a :: st, _ => exact h k b a st s

theorem executes_three (h : ∀ k c b a st s, M.Outcome k (action (c :: b :: a :: st) s)
      (execute M.call M.closure M.chunk op operand (M.frame k s.locals (c :: b :: a :: st))
        s.heap)) : M.Executes op operand 3 action := by
  intro k st s hst
  match st, hst with
  | c :: b :: a :: st, _ => exact h k c b a st s

theorem executes_loadNone : M.Executes .loadNone 0 0 (Action.push .none) :=
  fun _ _ _ _ => outcome_pure

theorem executes_pop : M.Executes .pop 0 1 Action.drop :=
  executes_one fun _ _ _ _ => outcome_pure

theorem executes_dup : M.Executes .dup 0 1 Action.dup :=
  executes_one fun _ _ _ _ => outcome_pure

theorem executes_rot2 : M.Executes .rot2 0 2 Action.rot2 :=
  executes_two fun _ _ _ _ _ => outcome_pure

theorem executes_rot3 : M.Executes .rot3 0 3 Action.rot3 :=
  executes_three fun _ _ _ _ _ _ => outcome_pure

theorem executes_unary (op : UnaryOp) :
    M.Executes .unary op.code.toNat 1 (Action.onTop (Run.unary op)) :=
  executes_one fun _ v _ _ => by
    have hcode : Run.unaryCode op.code.toNat.toUInt8 v = Run.unary op v := by
      cases op <;> rfl
    rw [Action.onTop, ← hcode]
    exact outcome_run _ _

theorem executes_binary (op : BinaryOp) :
    M.Executes .binary op.code.toNat 2 (Action.onTwo (Run.binary op)) :=
  executes_two fun _ b a _ _ => by
    have hcode : Run.binaryCode op.code.toNat.toUInt8 a b = Run.binary op a b := by
      cases op <;> rfl
    rw [Action.onTwo, ← hcode]
    exact outcome_run _ _

theorem executes_compare (op : CompareOp) :
    M.Executes .compare op.code.toNat 2 (Action.onTwo (Run.compare op)) :=
  executes_two fun _ b a _ _ => by
    have hcode : Run.compareCode op.code.toNat.toUInt8 a b = Run.compare op a b := by
      cases op <;> rfl
    rw [Action.onTwo, ← hcode]
    exact outcome_run _ _

theorem executes_getIndex : M.Executes .getIndex 0 2 (Action.onTwo Run.index) :=
  executes_two fun _ _ _ _ _ => outcome_run _ _

theorem executes_buildSlice : M.Executes .buildSlice 0 3 (Action.onThree Run.newSlice) :=
  executes_three fun _ _ _ _ _ _ => outcome_run _ _

theorem executes_loadConst (hv : M.chunk.constants[i]? = some v) :
    M.Executes .loadConst i 0 (Action.push v) := by
  intro k st s _
  have hconstant : constant M.chunk i = pure v := by
    rw [constant, hv]
  unfold execute
  simp only [hconstant, pure_bind]
  exact outcome_pure

theorem constantName_eq (h : M.chunk.constants[i]? = some (.str name)) :
    constantName M.chunk i = pure name := by
  rw [constantName, constant, h]
  rfl

theorem executes_loadGlobal (h : M.chunk.constants[i]? = some (.str name)) :
    M.Executes .loadGlobal i 0 (Action.loadGlobal M.closure.globals name) := by
  intro k st s _
  unfold execute
  simp only [constantName_eq h, pure_bind, Action.loadGlobal]
  cases M.closure.globals.get? name with
  | some v => exact outcome_pure
  | none => exact outcome_throw

theorem executes_getAttr (h : M.chunk.constants[i]? = some (.str name)) :
    M.Executes .getAttr i 1 (Action.onTop fun v => Run.attributeOf v name) :=
  executes_one fun _ _ _ _ => by
    unfold execute
    simp only [constantName_eq h, pure_bind]
    exact outcome_run _ _

theorem executes_loadMethod (h : M.chunk.constants[i]? = some (.str name)) :
    M.Executes .loadMethod i 1 (Action.loadMethod name) :=
  executes_one fun _ v st _ => by
    unfold execute
    simp only [constantName_eq h, pure_bind]
    exact outcome_run (Run.method v name) fun found =>
      (if found.2 then v else .noReceiver) :: found.1 :: st

theorem executes_loadLocal (h : M.code.locals[i]? = some name) :
    M.Executes .loadLocal i 0 (Action.loadLocal name) := by
  intro k st s _
  unfold execute
  simp only [frame_locals_getElem? h]
  exact .running

theorem executes_storeLocal (h : M.code.locals[i]? = some name) :
    M.Executes .storeLocal i 1 (Action.storeLocal name) :=
  executes_one fun k v st s => by
    have hlt : i < (M.frame k s.locals (v :: st)).locals.size := by
      simpa [frame] using (List.getElem?_eq_some_iff.mp h).1
    unfold execute
    simp only [pop, frame_stack, pure_bind, if_pos hlt, frame_locals_set h]
    exact .running

/-- Takes the topmost values off a stack that is high enough. -/
theorem popMany_eq (h : count ≤ st.length) :
    popMany count st = pure ((st.take count).reverse, st.drop count) := by
  rw [popMany, if_pos h]

theorem executes_buildList (count : Nat) :
    M.Executes .buildList count count (Action.onMany count Run.newList) := by
  intro k st s hst
  unfold execute
  simp only [frame_stack, popMany_eq hst, pure_bind, Action.onMany, if_pos hst]
  exact outcome_run _ _

theorem executes_buildTuple (count : Nat) :
    M.Executes .buildTuple count count (Action.onMany count Run.newTuple) := by
  intro k st s hst
  unfold execute
  simp only [frame_stack, popMany_eq hst, pure_bind, Action.onMany, if_pos hst]
  exact outcome_run _ _

theorem executes_buildDict (count : Nat) :
    M.Executes .buildDict count (2 * count) (Action.onMany (2 * count) Run.buildDict) := by
  intro k st s hst
  unfold execute
  simp only [frame_stack, popMany_eq hst, pure_bind, Action.onMany, if_pos hst]
  exact outcome_run _ _

/-- A stack with more than so many values, taken apart below them. -/
theorem drop_eq_cons (h : count + 1 ≤ st.length) : ∃ v, st.drop count = v :: st.drop (count + 1) :=
  ⟨st[count], drop_eq_getElem_cons h⟩

theorem executes_call (count : Nat) :
    M.Executes .call count (count + 1) (Action.call M.call count) := by
  intro k st s hst
  have hcount : count ≤ st.length := by omega
  obtain ⟨callee, hcallee⟩ := drop_eq_cons hst
  unfold execute
  simp only [frame_stack, popMany_eq hcount, pure_bind, Action.call, if_pos hcount, hcallee, pop]
  exact outcome_run _ _

theorem executes_callMethod (count : Nat) :
    M.Executes .callMethod count (count + 2) (Action.callMethod M.call count) := by
  intro k st s hst
  have hcount : count ≤ st.length := by omega
  obtain ⟨receiver, hreceiver⟩ := drop_eq_cons (Nat.le_of_succ_le hst)
  obtain ⟨callee, hcallee⟩ := drop_eq_cons hst
  unfold execute
  simp only [frame_stack, popMany_eq hcount, pure_bind, Action.callMethod, if_pos hcount,
    hreceiver, hcallee, pop]
  exact outcome_run _ _

theorem executes_listExtend : M.Executes .listExtend 0 2 Action.listExtend :=
  executes_two fun k v list st s => by
    have hrun : execute M.call M.closure M.chunk .listExtend 0
        (M.frame k s.locals (v :: list :: st)) = (do
          let _ ← Perform.extending list v
          pure (.running (M.frame k s.locals (list :: st)))) := by
      unfold execute Perform.extending
      cases list <;> simp only [frame_stack, pop, pure_bind, bind_assoc] <;> rfl
    rw [hrun]
    exact outcome_run _ fun _ => list :: st

theorem executes_dictMerge : M.Executes .dictMerge 0 2 Action.dictMerge :=
  executes_two fun k v dict st s => by
    have hrun : execute M.call M.closure M.chunk .dictMerge 0
        (M.frame k s.locals (v :: dict :: st)) = (do
          let _ ← Perform.merging dict v
          pure (.running (M.frame k s.locals (dict :: st)))) := by
      unfold execute Perform.merging
      cases dict <;> simp only [frame_stack, pop, pure_bind, bind_assoc] <;> rfl
    rw [hrun]
    exact outcome_run _ fun _ => dict :: st

theorem executes_callEx (method : Bool) :
    M.Executes .callEx (if method then 1 else 0) (if method then 4 else 3)
      (Action.callEx M.call method) := by
  intro k st s hst
  cases method with
  | true =>
    match st, hst with
    | dict :: list :: receiver :: callee :: st, _ =>
      have hrun : execute M.call M.closure M.chunk .callEx 1
          (M.frame k s.locals (dict :: list :: receiver :: callee :: st)) = (do
            let v ← (do
              let args := ((← get).items? list).getD []
              let keywords ← Run.spreadKeywords dict
              M.call callee (withReceiver receiver args) keywords : Run Value)
            pure (.running (M.frame k s.locals (v :: st)))) := by
        unfold execute
        simp only [frame_stack, pop, pure_bind, bind_assoc]
        rfl
      simp only [if_true]
      rw [hrun]
      exact outcome_run _ fun v => v :: st
  | false =>
    match st, hst with
    | dict :: list :: callee :: st, _ =>
      have hrun : execute M.call M.closure M.chunk .callEx 0
          (M.frame k s.locals (dict :: list :: callee :: st)) = (do
            let v ← (do
              let args := ((← get).items? list).getD []
              let keywords ← Run.spreadKeywords dict
              M.call callee args keywords : Run Value)
            pure (.running (M.frame k s.locals (v :: st)))) := by
        unfold execute
        simp only [frame_stack, pop, pure_bind, bind_assoc]
        rfl
      simp only [Bool.false_eq_true, if_false]
      rw [hrun]
      exact outcome_run _ fun v => v :: st

theorem executes_unpack (count : Nat) : M.Executes .unpack count 1 (Action.unpack count) :=
  executes_one fun k v st s => by
    simp only [execute, frame_stack, pop, pure_bind, Action.unpack, Perform.unpack,
      bind_apply, get_apply]
    cases s.heap.items? v with
    | none => exact .failed
    | some items =>
      by_cases hcount : items.length = count
      · simp only [hcount, beq_self_eq_true, if_true]
        exact .running
      · simp only [hcount, beq_eq_false_iff_ne.mpr hcount, Bool.false_eq_true, if_false]
        exact .failed

end Setting

end ExprBackend
