import ExprBackend.Proofs.Execution
import ExprBackend.Proofs.Readiness

/-! # Simulation of emitted code

An emission simulates an action on the stack if the code it adds, wherever it ends
up in assembled code, does what the action does: it runs through to its end with
the stack and the scene that the action leaves, it stops at the failure of the
action, or it hands over to the top of the loop. Simulations compose as emissions
do.
-/

namespace ExprBackend

open List Setting

variable {count : Nat} {v pair : Value} {s s' : Scene}

/-- Items that are unpacked are as many as were asked for. -/
theorem Perform.length_of_unpack {items : List Value}
    (h : Perform.unpack count v s = (.ok items, s')) : items.length = count := by
  rw [Perform.unpack, bind_apply, get_apply] at h
  cases hitems : s.heap.items? v with
  | none =>
    simp only [hitems] at h
    cases h
  | some found =>
    simp only [hitems] at h
    split at h
    next hcount =>
      cases h
      exact hcount
    next => cases h

/-- Makes a pair the action and the argument of the next pass through a loop. -/
def Perform.handOver (pair : Value) : Perform Unit := do
  match ← Perform.unpack 2 pair with
  | [action, argument] =>
    Perform.assign actionName action
    Perform.assign argumentName argument
  | _ => pure ()

/-- Unpacking fails, if it does, for good. -/
theorem Perform.unpack_ne_transfer : Perform.unpack count v s ≠ (.error (.transfer pair), s') := by
  intro h
  rw [Perform.unpack, bind_apply, get_apply] at h
  cases hitems : s.heap.items? v with
  | none =>
    simp only [hitems] at h
    cases h
  | some found =>
    simp only [hitems] at h
    split at h <;> cases h

theorem Perform.handOver_ne_transfer {other : Value} :
    Perform.handOver pair s ≠ (.error (.transfer other), s') := by
  intro h
  rw [Perform.handOver, bind_apply] at h
  cases hunpack : (Perform.unpack 2 pair s : Except Exit (List Value) × Scene) with
  | mk result s1 =>
    rw [hunpack] at h
    cases result with
    | error e =>
      cases h
      exact Perform.unpack_ne_transfer hunpack
    | ok items =>
      match items, Perform.length_of_unpack hunpack with
      | [a, b], _ => cases h

namespace Setting

/-- The place of the top of the loop. -/
def HeadAt (M : Setting) (mode : Mode) (p : Nat) : Prop :=
  ∃ l info, mode.head = some l ∧ M.code.label? l = some info ∧ info.position = some p

/-- The code from a place up to the end of a buffer does what an action has done to a stack and a
scene. -/
inductive Realizes (M : Setting) (mode : Mode) (k : Nat) (c : Code) (st : List Value) (s : Scene) :
    Except Exit (List Value) × Scene → Prop where
  | value {n : Nat} {st' : List Value} {s' : Scene} : c.reachable = true →
      (st'.length : Int) = c.depth → n + k ≤ c.body.size →
      M.Runs n k st s c.body.size st' s' → Realizes M mode k c st s (.ok st', s')
  | failure {n : Nat} {e : Failure} {s' : Scene} : n + k < c.body.size →
      M.Stops n k st s e s'.heap → Realizes M mode k c st s (.error (.failure e), s')
  | transfer {n p : Nat} {pair : Value} {s' s'' : Scene} : M.HeadAt mode p →
      Perform.handOver pair s' = (.ok (), s'') → M.Runs n k st s p [] s'' →
      Realizes M mode k c st s (.error (.transfer pair), s')
  | refusal {n : Nat} {pair : Value} {e : Failure} {s' s'' : Scene} : mode.head.isSome = true →
      Perform.handOver pair s' = (.error (.failure e), s'') →
      M.Stops n k st s e s''.heap → Realizes M mode k c st s (.error (.transfer pair), s')

variable {M : Setting} {mode : Mode} {k k1 : Nat} {c c1 : Code} {st st1 : List Value} {s s1 : Scene}
  {n : Nat} {p : Perform (List Value)}

/-- What follows code that has run through is realized from there. -/
theorem Realizes.after {outcome : Except Exit (List Value) × Scene}
    (hrun : M.Runs n k st s k1 st1 s1) (hle : n + k ≤ k1)
    (hrest : M.Realizes mode k1 c st1 s1 outcome) : M.Realizes mode k c st s outcome := by
  cases hrest with
  | value hlive hlength hle' hrun' => exact .value hlive hlength (by omega) (hrun.trans hrun')
  | failure hlt hstops => exact .failure (by omega) (hrun.stops hstops)
  | transfer hhead hover hrun' => exact .transfer hhead hover (hrun.trans hrun')
  | refusal hhead hover hstops => exact .refusal hhead hover (hrun.stops hstops)

theorem Realizes.bind {q : List Value → Perform (List Value)} (h : M.Realizes mode k c st s (p s))
    (hle : c.body.size ≤ c1.body.size)
    (hrest : ∀ st1 s1, c.reachable = true → (st1.length : Int) = c.depth →
      M.Realizes mode c.body.size c1 st1 s1 (q st1 s1)) :
    M.Realizes mode k c1 st s ((p >>= q) s) := by
  rw [bind_apply]
  generalize p s = outcome at h
  cases h with
  | value hlive hlength hle' hrun => exact .after hrun hle' (hrest _ _ hlive hlength)
  | failure hlt hstops => exact .failure (by omega) hstops
  | transfer hhead hover hrun => exact .transfer hhead hover hrun
  | refusal hhead hover hstops => exact .refusal hhead hover hstops

/-- Code that runs on without touching the stack does not change what is realized. -/
theorem Realizes.leap (h : M.Realizes mode k c st s (p s)) (hle : n + c.body.size ≤ c1.body.size)
    (hrun : c.reachable = true → c1.reachable = true ∧ c1.depth = c.depth ∧
      ∀ st1 s1, M.Runs n c.body.size st1 s1 c1.body.size st1 s1) :
    M.Realizes mode k c1 st s (p s) := by
  rw [← bind_pure p]
  refine h.bind (by omega) fun st1 s1 hlive hlength => ?_
  obtain ⟨hlive1, hdepth, hruns⟩ := hrun hlive
  exact .value hlive1 (by rw [hdepth, hlength]) hle (hruns st1 s1)

/-- An instruction realizes what it does to the stack. -/
theorem realizes_instruction {op : Opcode} {operand : Int} {reads : Nat}
    {action : List Value → Perform (List Value)} (hop : op.isJump = false)
    (hexec : M.Executes op (decoded op.width operand) reads action) (hreads : reads ≤ st.length)
    (hins : M.code.body[k]? = some ⟨op, operand⟩) (hsize : c.body.size = k + 1)
    (hlive : c.reachable = true)
    (hlength : ∀ st' s', action st s = (.ok st', s') → (st'.length : Int) = c.depth) :
    M.Realizes mode k c st s (action st s) := by
  have hstep : M.step (M.frame k s.locals st) =
      Machine.execute M.call M.closure M.chunk op (decoded op.width operand)
        (M.frame (k + 1) s.locals st) :=
    M.assembled.step_body hins hop M.call M.closure _ st
  have hout := hexec (k + 1) st s hreads
  rw [← hstep] at hout
  generalize houtcome : action st s = outcome at hout
  generalize hresult : (M.step (M.frame k s.locals st) s.heap :
    Except Failure Machine.Progress × Heap) = result at hout
  cases hout with
  | running =>
    refine .value (n := 1) hlive (hlength _ _ houtcome) (by omega) ?_
    rw [hsize]
    exact .single hresult
  | failed => exact .failure (n := 0) (by omega) ⟨_, _, .refl _ _, hresult⟩

end Setting

namespace Emit

/-- The emission keeps the order of the buffer, and its code simulates an action. -/
structure Sim {α : Type} (M : Setting) (mode : Mode) (x : Emit α) (ctx ctx' : Context) (need : Int)
    (count : Nat) (change : Int) (action : List Value → Perform (List Value)) : Prop where
  keeps : Keeps mode x ctx ctx' need count change
  run : ∀ ⦃marks : Marks⦄ ⦃c : Code⦄ ⦃a : α⦄ ⦃c' : Code⦄, x.Yields marks c a c' →
    c.Ready mode ctx → c.reachable = true → need ≤ c.depth → c'.Grows M.code →
    mode.Marked marks → ∀ st s, (st.length : Int) = c.depth →
    M.Realizes mode c.body.size c' st s (action st s)

section Sim

variable {α β : Type} {M : Setting} {mode : Mode} {ctx ctx1 ctx2 : Context} {need need1 need2 : Int}
  {count1 count2 : Nat} {change1 change2 : Int}
  {action1 action2 : List Value → Perform (List Value)} {c : Code} {x : Emit α} {f : α → Emit β}
  {op : Opcode} {operand change : Int} {reads count slot : Nat}
  {action : List Value → Perform (List Value)} {v : Value} {name : Text}

/-- Code that is part of assembled code is small. -/
theorem size_le_of_grows (h : c.Grows M.code) : c.body.size ≤ 65535 :=
  Nat.le_trans h.size_le M.assembled.body_size_le

theorem sim_pure (a : α) : Sim M mode (pure a : Emit α) ctx ctx need 0 0 pure where
  keeps := keeps_pure a
  run marks c b c' h hready hlive _ hgrows hmarks st s hst := by
    obtain ⟨-, rfl⟩ := yields_pure.mp h
    exact .value (n := 0) hlive hst (by omega) (.refl _ _)

theorem sim_bind (need : Int) (hneeds : need1 ≤ need ∧ need2 ≤ need + change1)
    (hx : Sim M mode x ctx ctx1 need1 count1 change1 action1) (hgrowing : ∀ a, Growing (f a))
    (hf : count1 ≤ 65535 → ∀ a, Sim M mode (f a) ctx1 ctx2 need2 count2 change2 action2) :
    Sim M mode (x >>= f) ctx ctx2 need (count1 + count2) (change1 + change2)
      fun st => action1 st >>= action2 where
  keeps := keeps_bind hx.keeps hgrowing (fun hcount a => (hf hcount a).keeps) hneeds.1 hneeds.2
  run marks c b c' h hready hlive hneed hgrows hmarks st s hst := by
    obtain ⟨a, c1, hfirst, hrest⟩ := yields_bind.mp h
    have hgrows1 := (hgrowing a hrest).trans hgrows
    obtain ⟨hready1, hflow, -⟩ := hx.keeps.step hfirst hready (fun _ => hlive)
      (fun _ => Int.le_trans hneeds.1 hneed) (size_le_of_grows hgrows1)
    have hcount : count1 ≤ 65535 := by
      have := hflow.size_le
      have := size_le_of_grows hgrows1
      omega
    refine .bind (hx.run hfirst hready hlive (by omega) hgrows1 hmarks st s hst)
      (hgrowing a hrest).size_le fun st1 s1 hlive1 hst1 => ?_
    have hdepth := hflow.depth hlive hlive1
    exact (hf hcount a).run hrest hready1 hlive1 (by omega) hgrows hmarks st1 s1 hst1

/-- An emission simulates every action that agrees on stacks of the height it needs. -/
theorem Sim.congr (h : Sim M mode x ctx ctx1 need count1 change1 action1)
    (haction : ∀ st : List Value, need ≤ st.length → action1 st = action2 st) :
    Sim M mode x ctx ctx1 need count1 change1 action2 where
  keeps := h.keeps
  run marks c a c' hx hready hlive hneed hgrows hmarks st s hst := by
    rw [← haction st (by omega)]
    exact h.run hx hready hlive hneed hgrows hmarks st s hst

theorem Sim.weaken (h : Sim M mode x ctx ctx1 need1 count1 change1 action1) (hneed : need1 ≤ need2)
    (hcount : count2 ≤ count1) : Sim M mode x ctx ctx1 need2 count2 change1 action1 where
  keeps := ⟨h.keeps.growing, fun marks c a c' hx hready hlive hneed2 hsize => by
    obtain ⟨hready1, hflow, hlive1⟩ := h.keeps.step hx hready hlive
      (fun hc => Int.le_trans hneed (hneed2 hc)) hsize
    have := hflow.size_le
    exact ⟨hready1, { hflow with size_le := by omega }, hlive1⟩⟩
  run marks c a c' hx hready hlive hneed2 hgrows :=
    h.run hx hready hlive (Int.le_trans hneed hneed2) hgrows

theorem Sim.adjust (h : Sim M mode x ctx ctx1 need1 count1 change1 action1)
    (hfits : need1 ≤ need2 ∧ count2 ≤ count1 ∧ change1 = change2)
    (haction : ∀ st : List Value, need2 ≤ st.length → action1 st = action2 st) :
    Sim M mode x ctx ctx1 need2 count2 change2 action2 := by
  obtain ⟨hneed, hcount, rfl⟩ := hfits
  exact (h.weaken hneed hcount).congr haction

/-- One emission after another, where the second needs no count. -/
theorem sim_seq (need : Int) (hneeds : need1 ≤ need ∧ need2 ≤ need + change1)
    (hx : Sim M mode x ctx ctx1 need1 count1 change1 action1)
    (hf : ∀ a, Sim M mode (f a) ctx1 ctx2 need2 count2 change2 action2) :
    Sim M mode (x >>= f) ctx ctx2 need (count1 + count2) (change1 + change2)
      fun st => action1 st >>= action2 :=
  sim_bind need hneeds hx (fun a => (hf a).keeps.growing) fun _ => hf

/-- How much an action adds to a stack that is high enough. -/
def Adds (reads : Nat) (change : Int) (action : List Value → Perform (List Value)) : Prop :=
  ∀ st s st' s', reads ≤ st.length → action st s = (.ok st', s') →
    (st'.length : Int) = st.length + change

/-- An instruction simulates what it does to the stack. -/
theorem sim_append (hop : op.isJump = false)
    (hexec : M.Executes op (decoded op.width operand) reads action)
    (hadds : Adds reads change action) (hfits : -131072 ≤ change ∧ change ≤ 1 ∧ -change ≤ reads) :
    Sim M mode (append op operand change) ctx ctx reads 1 change action where
  keeps := ⟨grows.append op operand change, fun marks c u c' h hready hlive hneed hsize =>
    (keeps_append op operand hfits.1 hfits.2.1).step h hready hlive
      (fun hc => Int.le_trans hfits.2.2 (hneed hc)) hsize⟩
  run marks c u c' h hready hlive hneed hgrows hmarks st s hst := by
    obtain rfl := yields_append.mp h
    have hsize : c.body.size ≤ 65535 :=
      Nat.le_trans (c.grows_appended ..).size_le (size_le_of_grows hgrows)
    refine realizes_instruction hop hexec (by omega)
      (hgrows.body_getElem? (by simp)) (by simp) hlive fun st' s' haction => ?_
    rw [Code.appended_depth, hready.height_add hsize hfits.1 hfits.2.1, ← hst]
    exact hadds st s st' s' (by omega) haction

/-! ### Instructions -/

theorem eq_of_ok {P : Perform α} {post : α → List Value} {s s' : Scene} {st' : List Value}
    (h : (do let a ← P; pure (post a) : Perform (List Value)) s = (.ok st', s')) :
    ∃ a, st' = post a := by
  obtain ⟨a, s1, -, hpure⟩ := bind_eq_ok.mp h
  cases hpure
  exact ⟨a, rfl⟩

theorem adds_push (v : Value) : Adds 0 1 (Action.push v) := by
  intro st s st' s' _ h
  cases h
  simp

theorem adds_onTop (f : Value → Run Value) : Adds 1 0 (Action.onTop f) := by
  intro st s st' s' hst h
  match st, hst with
  | v :: st, _ =>
    obtain ⟨r, rfl⟩ := eq_of_ok h
    simp

theorem adds_onTwo (f : Value → Value → Run Value) : Adds 2 (-1) (Action.onTwo f) := by
  intro st s st' s' hst h
  match st, hst with
  | b :: a :: st, _ =>
    obtain ⟨r, rfl⟩ := eq_of_ok h
    simp only [length_cons]
    omega

theorem adds_onThree (f : Value → Value → Value → Run Value) : Adds 3 (-2) (Action.onThree f) := by
  intro st s st' s' hst h
  match st, hst with
  | c :: b :: a :: st, _ =>
    obtain ⟨r, rfl⟩ := eq_of_ok h
    simp only [length_cons]
    omega

theorem adds_onMany (count : Nat) (f : List Value → Run Value) :
    Adds count (1 - count) (Action.onMany count f) := by
  intro st s st' s' hst h
  rw [Action.onMany, if_pos hst] at h
  obtain ⟨r, rfl⟩ := eq_of_ok h
  simp only [length_cons, length_drop]
  omega

theorem sim_loadNone : Sim M mode loadNone ctx ctx 0 1 1 (Action.push .none) :=
  sim_append rfl executes_loadNone (adds_push _) (by decide)

theorem adds_drop : Adds 1 (-1) Action.drop := by
  intro st s st' s' hst h
  match st, hst with
  | v :: st, _ =>
    cases h
    simp only [length_cons]
    omega

theorem adds_dup : Adds 1 1 Action.dup := by
  intro st s st' s' hst h
  match st, hst with
  | v :: st, _ =>
    cases h
    simp

theorem adds_rot2 : Adds 2 0 Action.rot2 := by
  intro st s st' s' hst h
  match st, hst with
  | a :: b :: st, _ =>
    cases h
    simp

theorem adds_rot3 : Adds 3 0 Action.rot3 := by
  intro st s st' s' hst h
  match st, hst with
  | c :: b :: a :: st, _ =>
    cases h
    simp

theorem adds_unpack : Adds 1 1 (Action.unpack 2) := by
  intro st s st' s' hst h
  match st, hst with
  | v :: st, _ =>
    obtain ⟨items, s1, hitems, hpure⟩ := bind_eq_ok.mp h
    cases hpure
    have hlength := Perform.length_of_unpack hitems
    simp only [length_append, length_cons]
    omega

theorem adds_loadLocal (name : Text) : Adds 0 1 (Action.loadLocal name) := by
  intro st s st' s' _ h
  cases h
  simp

theorem adds_storeLocal (name : Text) : Adds 1 (-1) (Action.storeLocal name) := by
  intro st s st' s' hst h
  match st, hst with
  | v :: st, _ =>
    obtain ⟨_, rfl⟩ := eq_of_ok h
    simp only [length_cons]
    omega

theorem adds_loadGlobal (globals : Bindings) (name : Text) :
    Adds 0 1 (Action.loadGlobal globals name) := by
  intro st s st' s' _ h
  rw [Action.loadGlobal] at h
  cases hglobal : globals.get? name with
  | some v =>
    rw [hglobal] at h
    cases h
    simp
  | none =>
    rw [hglobal] at h
    cases h

theorem sim_pop : Sim M mode pop ctx ctx 1 1 (-1) Action.drop :=
  sim_append rfl executes_pop adds_drop (by decide)

theorem sim_dup : Sim M mode dup ctx ctx 1 1 1 Action.dup :=
  sim_append rfl executes_dup adds_dup (by decide)

theorem sim_rot2 : Sim M mode rot2 ctx ctx 2 1 0 Action.rot2 :=
  sim_append rfl executes_rot2 adds_rot2 (by decide)

theorem sim_rot3 : Sim M mode rot3 ctx ctx 3 1 0 Action.rot3 :=
  sim_append rfl executes_rot3 adds_rot3 (by decide)

/-- The number of an operator is read back as it was written. -/
theorem decoded_code (hop : op.width = 1) (code : UInt8) :
    decoded op.width code.toNat = code.toNat := by
  have := code.toNat_lt
  rw [hop, decoded]
  omega

theorem sim_unary (op : UnaryOp) :
    Sim M mode (unary op.code) ctx ctx 1 1 0 (Action.onTop (Run.unary op)) := by
  refine sim_append rfl ?_ (adds_onTop _) (by decide)
  rw [decoded_code rfl]
  exact executes_unary op

theorem sim_binary (op : BinaryOp) :
    Sim M mode (binary op.code) ctx ctx 2 1 (-1) (Action.onTwo (Run.binary op)) := by
  refine sim_append rfl ?_ (adds_onTwo _) (by decide)
  rw [decoded_code rfl]
  exact executes_binary op

theorem sim_compare (op : CompareOp) :
    Sim M mode (compare op.code) ctx ctx 2 1 (-1) (Action.onTwo (Run.compare op)) := by
  refine sim_append rfl ?_ (adds_onTwo _) (by decide)
  rw [decoded_code rfl]
  exact executes_compare op

theorem sim_getIndex : Sim M mode getIndex ctx ctx 2 1 (-1) (Action.onTwo Run.index) :=
  sim_append rfl executes_getIndex (adds_onTwo _) (by decide)

theorem sim_buildSlice : Sim M mode buildSlice ctx ctx 3 1 (-2) (Action.onThree Run.newSlice) :=
  sim_append rfl executes_buildSlice (adds_onThree _) (by decide)

theorem sim_buildList (hcount : count ≤ 65535) :
    Sim M mode (buildList count) ctx ctx count 1 (1 - count) (Action.onMany count Run.newList) := by
  refine sim_append rfl ?_ (adds_onMany count _) (by omega)
  rw [decoded_word rfl hcount]
  exact executes_buildList count

theorem sim_buildTuple {count : Nat} (hcount : count ≤ 65535) :
    Sim M mode (buildTuple count) ctx ctx count 1 (1 - count)
      (Action.onMany count Run.newTuple) := by
  refine sim_append rfl ?_ (adds_onMany count _) (by omega)
  rw [decoded_word rfl hcount]
  exact executes_buildTuple count

theorem sim_buildDict (hcount : count ≤ 65535) :
    Sim M mode (buildDict count) ctx ctx (2 * count : Nat) 1 (1 - 2 * count)
      (Action.onMany (2 * count) Run.buildDict) := by
  refine sim_append rfl ?_ (adds_onMany (2 * count) _) (by omega)
  rw [decoded_word rfl hcount]
  exact executes_buildDict count

theorem sim_call (hcount : count ≤ 65535) :
    Sim M mode (call count) ctx ctx (count + 1 : Nat) 1 (-count) (Action.call M.call count) := by
  refine sim_append rfl ?_ ?_ (by omega)
  · rw [decoded_word rfl hcount]
    exact executes_call count
  · intro st s st' s' hst h
    obtain ⟨callee, hcallee⟩ := drop_eq_cons hst
    rw [Action.call, if_pos (by omega), hcallee] at h
    obtain ⟨r, rfl⟩ := eq_of_ok h
    simp only [length_cons, length_drop]
    omega

theorem sim_callMethod (hcount : count ≤ 65535) :
    Sim M mode (callMethod count) ctx ctx (count + 2 : Nat) 1 (-count - 1)
      (Action.callMethod M.call count) := by
  refine sim_append rfl ?_ ?_ (by omega)
  · rw [decoded_word rfl hcount]
    exact executes_callMethod count
  · intro st s st' s' hst h
    obtain ⟨receiver, hreceiver⟩ := drop_eq_cons (Nat.le_of_succ_le hst)
    obtain ⟨callee, hcallee⟩ := drop_eq_cons hst
    rw [Action.callMethod, if_pos (by omega), hreceiver, hcallee] at h
    obtain ⟨r, rfl⟩ := eq_of_ok h
    simp only [length_cons, length_drop]
    omega

theorem sim_unpack : Sim M mode (unpack 2) ctx ctx 1 1 1 (Action.unpack 2) :=
  sim_append rfl (executes_unpack 2) adds_unpack (by decide)

theorem sim_listExtend : Sim M mode listExtend ctx ctx 2 1 (-1) Action.listExtend := by
  refine sim_append rfl executes_listExtend ?_ (by decide)
  intro st s st' s' hst h
  match st, hst with
  | b :: a :: st, _ =>
    obtain ⟨r, rfl⟩ := eq_of_ok h
    simp only [length_cons]
    omega

theorem sim_dictMerge : Sim M mode dictMerge ctx ctx 2 1 (-1) Action.dictMerge := by
  refine sim_append rfl executes_dictMerge ?_ (by decide)
  intro st s st' s' hst h
  match st, hst with
  | b :: a :: st, _ =>
    obtain ⟨r, rfl⟩ := eq_of_ok h
    simp only [length_cons]
    omega

theorem sim_callEx (method : Bool) :
    Sim M mode (callEx method) ctx ctx (if method then 4 else 3) 1 (if method then -3 else -2)
      (Action.callEx M.call method) := by
  have hexec := executes_callEx (M := M) method
  cases method with
  | true =>
    refine sim_append rfl hexec ?_ (by decide)
    intro st s st' s' hst h
    match st, hst with
    | d :: c :: b :: a :: st, _ =>
      obtain ⟨r, rfl⟩ := eq_of_ok h
      simp only [length_cons]
      omega
  | false =>
    refine sim_append rfl hexec ?_ (by decide)
    intro st s st' s' hst h
    match st, hst with
    | c :: b :: a :: st, _ =>
      obtain ⟨r, rfl⟩ := eq_of_ok h
      simp only [length_cons]
      omega

/-- A constant that has been put into the pool is found there by the instruction that goes with it.
-/
theorem executes_pooled (hwidth : op.width = 2) (hv : v ≠ .noReceiver)
    (hreceivers : Value.noReceiver ∉ c.chunk.constants)
    (hconstants : c.chunk.constants.size ≤ c.body.size)
    (hgrows : ((c.pooled v).appended op operand change).Grows M.code)
    (hexec : ∀ i, M.chunk.constants[i]? = some v → M.Executes op i reads action) :
    M.Executes op (decoded op.width (c.constantIndex v)) reads action := by
  have hsize := size_le_of_grows hgrows
  have hpool : M.chunk.constants[c.constantIndex v]? = some v := by
    rw [M.assembled.constants]
    exact hgrows.constants_getElem? (Chunk.addConstant_getElem? fun w hw =>
      Value.eq_of_identical (fun heq => hreceivers (heq ▸ hw)) hv)
  have hindex : c.constantIndex v ≤ 65535 := by
    have hlt : c.constantIndex v < (c.chunk.addConstant v).2.constants.size := Chunk.addConstant_lt
    have hle : (c.chunk.addConstant v).2.constants.size ≤ c.chunk.constants.size + 1 :=
      Chunk.size_addConstant_le
    simp only [Code.appended_body, Array.size_push, Code.pooled_body] at hsize
    omega
  rw [decoded_word hwidth hindex]
  exact hexec _ hpool

/-- An instruction with a constant simulates what it does with the constant. -/
theorem sim_pooled_append (hop : op.isJump = false) (hwidth : op.width = 2) (hv : v ≠ .noReceiver)
    (hexec : ∀ i, M.chunk.constants[i]? = some v → M.Executes op i reads action)
    (hadds : Adds reads change action) (hfits : -131072 ≤ change ∧ change ≤ 1 ∧ -change ≤ reads) :
    Sim M mode (do append op (← addConstant v) change) ctx ctx reads 1 change action where
  keeps := by
    have hkeeps : Keeps mode (do append op (← addConstant v) change) ctx ctx (-change) 1 change :=
      keeps_pooled_append op hv hfits.1 hfits.2.1
    exact ⟨hkeeps.growing, fun marks c u c' h hready hlive hneed hsize =>
      hkeeps.step h hready hlive (fun hc => Int.le_trans hfits.2.2 (hneed hc)) hsize⟩
  run marks c u c' h hready hlive hneed hgrows hmarks st s hst := by
    obtain rfl := pooled_of_yields h
    have hsize := size_le_of_grows hgrows
    have hexec' : M.Executes op (decoded op.width (c.constantIndex v)) reads action :=
      executes_pooled hwidth hv hready.receivers hready.constants_le hgrows hexec
    refine realizes_instruction hop hexec' (by omega)
      (hgrows.body_getElem? (by simp)) (by simp) hlive fun st' s' haction => ?_
    have hsize' : c.body.size ≤ 65535 :=
      Nat.le_trans ((c.grows_pooled v).trans (Code.grows_appended ..)).size_le hsize
    rw [Code.appended_depth, Code.pooled_depth, hready.height_add hsize' hfits.1 hfits.2.1, ← hst]
    exact hadds st s st' s' (by omega) haction

theorem sim_loadConst (hv : v ≠ .noReceiver) :
    Sim M mode (loadConst v) ctx ctx 0 1 1 (Action.push v) :=
  sim_pooled_append rfl rfl hv (fun _ => executes_loadConst) (adds_push v) (by decide)

theorem sim_getAttr (name : Text) :
    Sim M mode (getAttr name) ctx ctx 1 1 0 (Action.onTop fun v => Run.attributeOf v name) :=
  sim_pooled_append rfl rfl (by simp) (fun _ => executes_getAttr) (adds_onTop _) (by decide)

theorem sim_loadMethod (name : Text) :
    Sim M mode (loadMethod name) ctx ctx 1 1 1 (Action.loadMethod name) := by
  refine sim_pooled_append rfl rfl (by simp) (fun _ => executes_loadMethod) ?_ (by decide)
  intro st s st' s' hst h
  match st, hst with
  | v :: st, _ =>
    obtain ⟨⟨callee, bound⟩, s1, -, hpure⟩ := bind_eq_ok.mp h
    cases hpure
    simp

/-- A slot of the code that has been assembled is read back as it was written. -/
theorem decoded_slot (hop : op.width = 2) (hslot : M.code.locals[slot]? = some name) :
    decoded op.width slot = slot := by
  have := (List.getElem?_eq_some_iff.mp hslot).1
  have := M.locals_le
  exact decoded_word hop (by omega)

theorem executes_loadSlot (hlocal : M.code.locals[slot]? = some name) :
    M.Executes .loadLocal (decoded Opcode.loadLocal.width slot) 0 (Action.loadLocal name) := by
  rw [decoded_slot rfl hlocal]
  exact executes_loadLocal hlocal

theorem executes_storeSlot (hlocal : M.code.locals[slot]? = some name) :
    M.Executes .storeLocal (decoded Opcode.storeLocal.width slot) 1 (Action.storeLocal name) := by
  rw [decoded_slot rfl hlocal]
  exact executes_storeLocal hlocal

theorem sim_loadLocal (hlocal : M.code.locals[slot]? = some name) :
    Sim M mode (loadLocal slot) ctx ctx 0 1 1 (Action.loadLocal name) :=
  sim_append rfl (executes_loadSlot hlocal) (adds_loadLocal name) (by decide)

theorem sim_storeLocal (hlocal : M.code.locals[slot]? = some name) :
    Sim M mode (storeLocal slot) ctx ctx 1 1 (-1) (Action.storeLocal name) :=
  sim_append rfl (executes_storeSlot hlocal) (adds_storeLocal name) (by decide)

/-- A name that is local is read from its slot, any other from the globals. -/
theorem sim_loadName (hname : mode.Visible name) :
    Sim M mode (loadName name) ctx ctx 0 1 1 fun st => do
      return (← Perform.name M.closure.globals ctx name) :: st where
  keeps := ⟨grows.loadName name, fun marks c u c' h hready hlive hneed hsize =>
    (keeps_loadName name).step h hready hlive (fun hc => Int.le_trans (by decide) (hneed hc)) hsize⟩
  run marks c u c' h hready hlive hneed hgrows hmarks st s hst := by
    rw [loadName, yields_get_bind] at h
    have hscope := hready.scope name hname
    cases hslot : c.slot? name with
    | some slot =>
      rw [hslot] at h
      have hmem : name ∈ ctx.scope :=
        hscope.mp (mem_of_getElem? (Code.getElem?_of_slot? hslot))
      have hlocal : M.code.locals[slot]? = some name := by
        obtain rfl := yields_append.mp h
        exact hgrows.locals_getElem? (Code.getElem?_of_slot? hslot)
      have haction : (do return (← Perform.name M.closure.globals ctx name) :: st) =
          Action.loadLocal name st := by
        rw [Perform.name, if_pos hmem]
        rfl
      rw [haction]
      exact (sim_loadLocal hlocal).run h hready hlive hneed hgrows hmarks st s hst
    | none =>
      rw [hslot] at h
      have hmem : name ∉ ctx.scope := fun hmem =>
        Code.slot?_eq_none_iff.mp hslot (hscope.mpr hmem)
      have hsim : Sim M mode (do append .loadGlobal (← addConstant (.str name)) 1) ctx ctx 0 1 1
          (Action.loadGlobal M.closure.globals name) :=
        sim_pooled_append rfl rfl (by simp) (fun _ => executes_loadGlobal)
          (adds_loadGlobal _ name) (by decide)
      have haction : (do return (← Perform.name M.closure.globals ctx name) :: st) =
          Action.loadGlobal M.closure.globals name st := by
        rw [Perform.name, if_neg hmem, Action.loadGlobal]
        cases M.closure.globals.get? name <;> rfl
      rw [haction]
      exact hsim.run h hready hlive hneed hgrows hmarks st s hst

/-- A value is popped into the slot of its name. -/
theorem sim_storeName (hdeclared : ∀ c : Code, c.Ready mode ctx →
    (c.declared name).Ready mode ctx1) :
    Sim M mode (storeName name) ctx ctx1 1 1 (-1) (Action.storeLocal name) where
  keeps := keeps_storeName hdeclared
  run marks c u c' h hready hlive hneed hgrows hmarks st s hst := by
    obtain ⟨slot, c1, hslot, happend⟩ := yields_bind.mp h
    obtain ⟨rfl, rfl⟩ := yields_localSlot.mp hslot
    have hc := c.declared_eq name
    have hlocal : M.code.locals[c.declaredSlot name]? = some name := by
      obtain rfl := yields_append.mp happend
      exact hgrows.locals_getElem? (c.declared_getElem? name)
    have hrun := (sim_storeLocal hlocal).run happend (hdeclared c hready)
    rw [hc] at hrun
    exact hrun hlive hneed hgrows hmarks st s hst

end Sim

end Emit

end ExprBackend
