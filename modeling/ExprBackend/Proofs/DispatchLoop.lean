import ExprBackend.Proofs.Walk

/-! # Generated loops

The code of a generated function has a loop. Its top reads the current action and
goes on, by a jump table, at the code of that action, at the exit or at the end
for what is no action. The code of an action goes back to the top with the next
pair. The parts are emitted in this order, and each is shown to do its work in any
buffer that goes on behind it.
-/

namespace ExprBackend

open List

open ExprBackend.Action

variable {M : Setting} {c c' c1 : Code} {count : Nat} {ctx : Context} {l : Label}
  {labels ls : List Label} {marks : Marks} {n : Node} {name : Text} {names params : List Text}
  {u : Unit}

/-- Calls the argument with the values of the parameters. -/
def Perform.callOut (call : Caller) (params : List Text) : Perform Value := fun s =>
  ofRun (call (s.locals argumentName) (params.map s.locals) []) s

/-- Puts the action and the argument together. -/
def Perform.pairUp : Perform Value := fun s =>
  ofRun (Run.newTuple [s.locals actionName, s.locals argumentName]) s

namespace Emit

/-! ## Parts of the code -/

def loadNames : List Text → Emit Unit
  | [] => pure ()
  | name :: rest => do
    loadName name
    loadNames rest

section Slots

variable {slot : Nat}

/-- The slot of a name is read as the name is. -/
theorem loadName_of_loadLocal (h : (loadLocal slot).Yields marks c u c')
    (hslot : c.slot? name = some slot) : (loadName name).Yields marks c u c' := by
  rw [loadName, yields_get_bind, hslot]
  exact h

theorem storeName_of_storeLocal (h : (storeLocal slot).Yields marks c u c')
    (hslot : c.slot? name = some slot) : (storeName name).Yields marks c u c' := by
  rw [yields_storeName, Code.declared, Code.declaredSlot, Code.declare, hslot]
  exact yields_append.mp h

theorem storeName_of_mem (h : (storeName name).Yields marks c u c') (hname : name ∈ c.locals) :
    ∃ slot : Nat, c' = c.appended .storeLocal slot (-1) := by
  obtain rfl := yields_storeName.mp h
  exact ⟨_, by rw [Code.declared_of_mem hname]⟩

theorem loadNames_of_loadSlots (h : (loadSlots slot names.length).Yields marks c u c')
    (hslots : ∀ i name, names[i]? = some name → c.slot? name = some (slot + i)) :
    (loadNames names).Yields marks c u c' := by
  induction names generalizing c slot with
  | nil => exact h
  | cons name rest ih =>
    obtain ⟨_, c1, hload, h⟩ := yields_bind.mp h
    refine yields_bind.mpr ⟨(), c1, loadName_of_loadLocal hload (hslots 0 name rfl), ih h ?_⟩
    obtain rfl := yields_append.mp hload
    intro i other hother
    have := hslots (i + 1) other hother
    rw [Nat.add_right_comm]
    exact this

end Slots

theorem growing_newLabels (count : Nat) : Growing (newLabels count) := by
  induction count with
  | zero => exact grows.pure _
  | succ count ih =>
    exact grows.newLabel fun l => grows.bind ih fun ls => grows.pure (l :: ls)

theorem growing_loadSlots (first count : Nat) : Growing (loadSlots first count) := by
  induction count generalizing first with
  | zero => exact grows.pure _
  | succ count ih => exact grows.bind (grows.append ..) fun _ => ih (first + 1)

/-- Goes on with the value of an action, where it has one. -/
def proceed : Emit Unit := do if (← get).reachable then transfer

theorem growing_proceed : Growing proceed :=
  grows.bind grows.get fun _ => Code.Progress.ite grows.transfer (grows.pure _)

theorem actions_cons (l : Label) (labels : List Label) (n : Node) (rest : List Node) :
    actions (l :: labels) (n :: rest) = (do
      mark l
      expression n n.emit
      proceed
      actions labels rest) := by
  rw [actions, Node.emitInto, proceed]
  congr 1
  funext _
  congr 1
  funext _
  rw [bind_assoc]
  congr 1
  funext c
  cases c.reachable <;> simp

theorem growing_actions (labels : List Label) (ns : List Node) : Growing (actions labels ns) := by
  induction labels generalizing ns with
  | nil => exact grows.pure _
  | cons l labels ih =>
    cases ns with
    | nil => exact grows.pure _
    | cons n rest =>
      rw [actions_cons]
      exact grows.bind (grows.markAny l) fun _ => grows.bind (fun _ _ _ _ h => n.grown h)
        fun _ => grows.bind growing_proceed fun _ => ih rest

/-- New labels are open, and different from each other and from all labels before. -/
theorem newLabels_of_yields (h : (newLabels count).Yields marks c ls c') :
    ls.length = count ∧ ls.Nodup ∧ (∀ l ∈ ls, c.label? l = none ∧ c'.Open l (-1)) ∧
      (∀ l info, c.label? l = some info → c'.label? l = some info) ∧
      ∃ labels, c' = { c with labels } := by
  induction count generalizing c ls with
  | zero =>
    obtain ⟨rfl, rfl⟩ := yields_pure.mp h
    exact ⟨rfl, nodup_nil, by simp, fun _ _ h => h, _, rfl⟩
  | succ count ih =>
    obtain ⟨l, c1, hnew, h⟩ := yields_bind.mp h
    obtain ⟨rest, c2, hrest, h⟩ := yields_bind.mp h
    obtain ⟨rfl, rfl⟩ := yields_pure.mp h
    obtain ⟨rfl, rfl⟩ := yields_newLabel.mp hnew
    obtain ⟨hlength, hnodup, hopen, hkept, labels, hc2⟩ := ih hrest
    have hnew : c.labelled.label? c.labels.size = some {} := c.label?_labelled_new
    refine ⟨by rw [length_cons, hlength], nodup_cons.mpr ⟨fun hmem => ?_, hnodup⟩,
      forall_mem_cons.mpr ⟨⟨by simp [Code.label?], hkept _ _ hnew⟩,
        fun l hl => ⟨?_, (hopen l hl).2⟩⟩,
      fun l info hl => hkept l info (Code.label?_labelled hl), labels, hc2⟩
    · rw [(hopen _ hmem).1] at hnew
      cases hnew
    · cases hlabel : c.label? l with
      | none => rfl
      | some info =>
        have hold := (hopen l hl).1
        rw [Code.label?_labelled hlabel] at hold
        cases hold

section Sections

variable {mode : Mode}

theorem name_of_mem {globals : Bindings} (h : name ∈ ctx.scope) (s : Scene) :
    Perform.name globals ctx name s = (.ok (s.locals name), s) := by
  rw [Perform.name, if_pos h]
  rfl

theorem sim_loadNames (hvisible : ∀ name ∈ names, mode.Visible name) (hscope : names ⊆ ctx.scope) :
    Sim M mode (loadNames names) ctx ctx 0 names.length names.length fun st s =>
      (.ok ((names.map s.locals).reverse ++ st), s) := by
  induction names with
  | nil => exact (sim_pure ()).congr fun st _ => rfl
  | cons name rest ih =>
    rw [forall_mem_cons] at hvisible
    rw [cons_subset] at hscope
    refine (sim_seq 0 (by omega) (sim_loadName hvisible.1) fun _ => ih hvisible.2 hscope.2).adjust
      (by simp only [length_cons]; omega) fun st _ => ?_
    funext s
    rw [bind_apply, bind_of_ok (name_of_mem hscope.1 s)]
    simp [pure_apply]

/-- The exit calls the argument with the values of the parameters. -/
theorem sim_exit (hvisible : ∀ name, mode.Visible name)
    (hscope : argumentName :: params ⊆ ctx.scope) :
    Sim M mode (do loadName argumentName; loadNames params; call params.length) ctx ctx 0 1 1
      (pushes (Perform.callOut M.call params)) := by
  rw [cons_subset] at hscope
  have hload : Sim M mode (do loadName argumentName; loadNames params) ctx ctx 0
      (1 + params.length) (1 + params.length) _ :=
    sim_seq 0 (by omega) (sim_loadName (hvisible _))
    (fun _ => sim_loadNames (fun _ _ => hvisible _) hscope.2)
  have hcall : Sim M mode ((do loadName argumentName; loadNames params) >>= fun _ =>
      call params.length) ctx ctx 0 (1 + params.length + 1)
        (1 + params.length + -params.length) _ :=
    sim_bind 0 ⟨by omega, by push_cast; omega⟩ hload (fun _ => grows.append ..) fun hcount _ =>
      sim_call (by omega)
  rw [bind_assoc] at hcall
  refine hcall.adjust (by omega) fun st _ => ?_
  funext s
  rw [bind_apply, bind_apply, bind_of_ok (name_of_mem hscope.1 s)]
  simp only [pure_apply]
  rw [Node.call_reverse_append (by simp)]
  rfl

/-- What is no action is put together with its argument. -/
theorem sim_refusal (hvisible : ∀ name, mode.Visible name)
    (hscope : [actionName, argumentName] ⊆ ctx.scope) :
    Sim M mode (do loadName actionName; loadName argumentName; buildTuple 2) ctx ctx 0 1 1
      (pushes Perform.pairUp) := by
  rw [cons_subset, cons_subset] at hscope
  refine (sim_seq 0 (by omega) (sim_loadName (hvisible _)) (fun _ => sim_seq 1 (by omega)
    (sim_loadName (hvisible _))
    (fun _ => @sim_buildTuple M mode ctx 2 (by omega)))).adjust (by omega) fun st _ => ?_
  funext s
  rw [bind_apply, bind_of_ok (name_of_mem hscope.1 s)]
  simp only [pure_apply]
  rw [bind_apply, bind_of_ok (name_of_mem hscope.2.1 s)]
  have htuple : ([s.locals actionName, s.locals argumentName] : List Value).length = 2 := rfl
  exact congrFun (Node.onMany_reverse_append htuple Run.newTuple st) s

end Sections

section Ends

variable {k : Nat} {s : Scene} {h' : Heap}

/-- The call at the exit gives the result of the walk. -/
theorem finishes_exit (hret : M.code.body[c1.body.size]? = some ⟨.ret, 0⟩)
    (h : M.Realizes (.direct (some l)) k c1 [] s (pushes (Perform.callOut M.call params) [] s))
    {result : Except Failure Value}
    (hcall : M.call (s.locals argumentName) (params.map s.locals) [] s.heap = (result, h')) :
    ∃ n, M.Finishes n k [] s result h' := by
  have hp : Perform.callOut M.call params s =
      (result.mapError .failure, { s with heap := h' }) := by
    rw [Perform.callOut, Perform.ofRun, hcall]
    cases result <;> rfl
  obtain ⟨n, -, hfinishes⟩ := Setting.finishes_of_realizes h hp hret
  exact ⟨n, hfinishes⟩

/-- What is no action ends the walk with an error. -/
theorem finishes_refusal (hend : M.code.body[c1.body.size]? = some ⟨.invalidAction, 0⟩)
    (h : M.Realizes (.direct (some l)) k c1 [] s (pushes Perform.pairUp [] s)) {pair : Value}
    (htuple : Run.newTuple [s.locals actionName, s.locals argumentName] s.heap = (.ok pair, h')) :
    ∃ n, M.Finishes n k [] s (.error (.error (Machine.invalidAction h' pair))) h' := by
  have hp : Perform.pairUp s = (.ok pair, { s with heap := h' }) := by
    rw [Perform.pairUp, Perform.ofRun, htuple]
  rw [pushes, bind_of_ok hp] at h
  cases h with
  | value hlive hlength hle hruns =>
    refine ⟨_, _, _, hruns, ?_⟩
    rw [Setting.step, Setting.frame, M.assembled.step_body hend rfl]
    rfl

end Ends

/-! ## Labels of the loop -/

section Labels

/-- No locals are added in the loop. -/
theorem locals_of_ready {head : Option Label} (hlocals : c.locals = walkNames params)
    (hgrows : c.Grows c') (hready : c'.Ready (.direct head) ⟨walkNames params, []⟩) :
    c'.locals = walkNames params :=
  locals_eq (hlocals ▸ hgrows.locals) hready.nodup fun name hname =>
    (hready.scope name trivial).mp hname

/-- The labels that the top of the loop jumps to wait for their code. -/
structure Forked (l : Label) (params : List Text) (labels : List Label) (c : Code) : Prop where
  ready : c.Ready (.direct (some l)) ⟨walkNames params, []⟩
  locals : c.locals = walkNames params
  dead : c.reachable = false
  nodup : labels.Nodup
  isOpen : ∀ target ∈ labels, c.Open target 0

/-- At one of the labels code goes on with an empty stack. -/
theorem enter_of_yields {target : Label} (h : (mark target).Yields marks c u c')
    (hforked : Forked l params (target :: labels) c) :
    c'.Ready (.direct (some l)) ⟨walkNames params, []⟩ ∧ c'.locals = walkNames params ∧
      c'.reachable = true ∧ c'.depth = 0 ∧ labels.Nodup ∧ (∀ l' ∈ labels, c'.Open l' 0) ∧
      ∀ M : Setting, c'.Grows M.code → M.Placed target c'.body.size := by
  obtain ⟨hready, hlocals, hdead, hnodup, hopen⟩ := hforked
  rw [forall_mem_cons] at hopen
  rw [nodup_cons] at hnodup
  obtain ⟨hready', hother, hbody, hlive, -, hzero, info, hinfo, hposition⟩ :=
    ready_mark h hready hopen.1 (by omega)
  rw [hdead, Bool.false_or] at hlive
  rw [← hbody] at hposition
  exact ⟨hready', locals_of_ready hlocals (grows.markAny _ h) hready', hlive, hzero (by omega),
    hnodup.2, fun l' hl' => (hother l' fun heq => hnodup.1 (heq ▸ hl')).trans (hopen.2 l' hl'),
    fun M hgrows => Setting.placed_of_grows hgrows hinfo hposition⟩

/-- The code at one of the labels, if it is that of a value with an instruction behind it that ends
the activation. -/
theorem end_of_yields {x : Emit Unit} {op : Opcode} {p : Setting → Perform Value} {target : Label}
    {c2 : Code} (hsim : ∀ M, Sim M (.direct (some l)) x ⟨walkNames params, []⟩
      ⟨walkNames params, []⟩ 0 1 1 (pushes (p M)))
    (hmark : (mark target).Yields marks c u c1) (hx : x.Yields marks c1 u c2)
    (hforked : Forked l params (target :: labels) c)
    (hsize : (c2.appended op 0 (-1)).ended.body.size ≤ 65535) :
    Forked l params labels (c2.appended op 0 (-1)).ended ∧
      ∀ M : Setting, (c2.appended op 0 (-1)).ended.Grows M.code →
        M.Placed target c1.body.size ∧ M.code.body[c2.body.size]? = some ⟨op, 0⟩ ∧
          ∀ s, M.Realizes (.direct (some l)) c1.body.size c2 [] s (pushes (p M) [] s) := by
  obtain ⟨hready, hlocals, hlive, hdepth, hnodup, hopen, hplaced⟩ := enter_of_yields hmark hforked
  have hgrows2 : c2.Grows (c2.appended op 0 (-1)).ended :=
    (c2.grows_appended ..).trans (Code.grows_ended _)
  have hgrows1 := ((hsim .idle).keeps.growing hx).trans hgrows2
  obtain ⟨hready2, hflow, -⟩ := (hsim .idle).keeps.step hx hready (fun _ => hlive)
    (fun _ => by omega) (Nat.le_trans hgrows2.size_le hsize)
  have hready3 : (c2.appended op 0 (-1)).Ready (.direct (some l)) ⟨walkNames params, []⟩ := by
    refine (hready2.append op 0 (by omega) (by omega) (fun hlive2 => ?_) hsize).1
    have := hflow.depth hlive hlive2
    omega
  refine ⟨⟨hready3.ended, locals_of_ready hlocals hgrows1 hready3.ended, rfl, hnodup, fun l' hl' =>
    hflow.labels l' _ (by simp) (hopen l' hl')⟩, fun M hgrows =>
    ⟨hplaced M (hgrows1.trans hgrows), hgrows.body_getElem? (by simp), fun s => ?_⟩⟩
  exact (hsim M).run hx hready hlive (by omega) (hgrows2.trans hgrows) trivial [] s
    (by simp [hdepth])

end Labels

/-! ## Actions -/

section Actions

/-- Behind the code of an action nothing can be reached. -/
theorem dead_of_proceed (h : proceed.Yields marks c u c') : c'.reachable = false := by
  rw [proceed, yields_get_bind] at h
  obtain ⟨-, h⟩ | ⟨hdead, h⟩ := yields_ite.mp h
  · obtain ⟨_, _, -, h⟩ := yields_bind.mp h
    obtain ⟨_, _, -, h⟩ := yields_bind.mp h
    obtain ⟨_, _, -, h⟩ := yields_bind.mp h
    obtain ⟨_, _, -, h⟩ := yields_bind.mp h
    obtain ⟨c1, -, rfl⟩ := jump_of_yields h
    rfl
  · obtain ⟨-, rfl⟩ := yields_pure.mp h
    simpa using hdead

/-- An action without a value cannot go on where it ends: the jump back would have one value too
few. -/
theorem dead_of_valueless (h : proceed.Yields marks c u c')
    (hready : c.Ready (.direct (some l)) ctx) (hdepth : c.depth = 0) :
    c.reachable = false ∧ c = c' := by
  rw [proceed, yields_get_bind] at h
  obtain ⟨hlive, h⟩ | ⟨hdead, h⟩ := yields_ite.mp h
  · obtain ⟨hname, haction, hargument, info, p, hlabel, hposition, -, hzero⟩ := hready.loop l rfl
    obtain ⟨_, c1, hunpack, h⟩ := yields_bind.mp h
    obtain rfl := yields_append.mp hunpack
    obtain ⟨_, c2, hfirst, h⟩ := yields_bind.mp h
    obtain ⟨_, rfl⟩ := storeName_of_mem hfirst haction
    obtain ⟨_, c3, hsecond, h⟩ := yields_bind.mp h
    obtain ⟨_, rfl⟩ := storeName_of_mem hsecond hargument
    obtain ⟨_, c4, hnamed, h⟩ := yields_bind.mp h
    obtain ⟨rfl, rfl⟩ := (yields_namedLabel (by exact hname)).mp hnamed
    obtain ⟨c5, hbranch, rfl⟩ := jump_of_yields h
    cases hbranch with
    | dead hdead => exact absurd (hlive.symm.trans hdead) (by simp)
    | backward _ hlabel' _ _ hheight =>
      cases hlabel.symm.trans hlabel'
      rw [hzero] at hheight
      simp [hdepth, height] at hheight
    | forward _ hlabel' hunplaced _ =>
      cases hlabel.symm.trans hlabel'
      rw [hunplaced] at hposition
      cases hposition
  · obtain ⟨-, rfl⟩ := yields_pure.mp h
    exact ⟨by simpa using hdead, rfl⟩

/-- What an action leads to: the pair it goes on with, or its failure. -/
def leads (M : Setting) (ctx : Context) (n : Node) : Perform (List Value) := do
  let pair ← n.perform M.call M.closure.globals Gate.opened ctx
  throw (.transfer pair)

/-- The code of an action does what the action leads to, and leaves other labels alone. -/
theorem action_of_yields (hfits : n.Fits (.direct (some l)) ctx)
    (hemit : (expression n n.emit).Yields marks c u c1) (hproceed : proceed.Yields marks c1 u c')
    (hready : c.Ready (.direct (some l)) ctx) (hlive : c.reachable = true) (hdepth : c.depth = 0)
    (hsize : c'.body.size ≤ 65535) : c'.Ready (.direct (some l)) (ctx.after n) ∧
      (∀ l' info, c.label? l' = some info → c'.label? l' = some info) ∧
      ∀ M : Setting, c'.Grows M.code → ∀ s,
        M.Realizes (.direct (some l)) c.body.size c' [] s (leads M ctx n s) := by
  have hsim : ∀ M : Setting, Sim M (.direct (some l)) (expression n n.emit) ctx (ctx.after n) 0 1
      n.effect (delivers n.effect (n.perform M.call M.closure.globals Gate.opened ctx)) :=
    fun M => n.compiles passes_direct ctx hfits
  rcases n.effect_eq with heffect | heffect
  · -- Without a value the code must have left in its middle.
    have hsize1 : c1.body.size ≤ 65535 := Nat.le_trans (growing_proceed hproceed).size_le hsize
    obtain ⟨hready1, hflow, -⟩ := (hsim .idle).keeps.step hemit hready (fun _ => hlive)
      (fun _ => by omega) hsize1
    have hdead : c1.reachable = false := by
      cases hlive1 : c1.reachable with
      | false => rfl
      | true =>
        have hzero := hflow.depth hlive hlive1
        rw [heffect, hdepth] at hzero
        rw [← hlive1]
        exact (dead_of_valueless hproceed hready1 (by omega)).1
    have hc' : c1 = c' := by
      rw [proceed, yields_get_bind, hdead] at hproceed
      exact (yields_pure.mp hproceed).2
    subst hc'
    refine ⟨hready1, fun l' info => hflow.labels l' info (by simp), fun M hgrows s => ?_⟩
    have hrun := (hsim M).run hemit hready hlive (by omega) hgrows trivial [] s (by simp [hdepth])
    rw [delivers, bind_apply] at hrun
    rw [leads, bind_apply]
    generalize (n.perform M.call M.closure.globals Gate.opened ctx s : Except Exit Value × Scene) =
      outcome at hrun ⊢
    obtain ⟨_ | v, s'⟩ := outcome
    · exact hrun
    · cases hrun with
      | value hlive1 => exact absurd (hlive1.symm.trans hdead) (by simp)
  · have hall : ∀ M : Setting, Sim M (.direct (some l)) (do expression n n.emit; proceed) ctx
        (ctx.after n) 0 1 1 (fun _ => leads M ctx n) := by
      intro M
      have hn := hsim M
      rw [heffect] at hn
      refine (sim_seq 0 (by omega) hn
        (fun _ => Node.sim_whenReachable (Node.sim_transfer rfl) fun _ _ h => h)).adjust (by omega)
        fun st _ => ?_
      simp only [delivers, leads, bind_assoc, pure_bind, if_true]
    have hyields : (do expression n n.emit; proceed).Yields marks c u c' :=
      yields_bind.mpr ⟨_, _, hemit, hproceed⟩
    obtain ⟨hready', hflow, -⟩ := (hall .idle).keeps.step hyields hready (fun _ => hlive)
      (fun _ => by omega) hsize
    exact ⟨hready', fun l' info => hflow.labels l' info (by simp), fun M hgrows s =>
      (hall M).run hyields hready hlive (by omega) hgrows trivial [] s (by simp [hdepth])⟩

/-- The code at a label does what an action leads to. -/
def LeadsAt (M : Setting) (l : Label) (ctx : Context) (target : Label) (n : Node) : Prop :=
  ∃ q c, M.Placed target q ∧ c.reachable = false ∧
    ∀ s, M.Realizes (.direct (some l)) q c [] s (leads M ctx n s)

/-- An action that assigns no new names leaves the buffer in the order it was in. -/
theorem ready_of_after (h : c.Ready (.direct (some l)) (ctx.after n))
    (hassigned : n.assigned ⊆ ctx.scope) : c.Ready (.direct (some l)) ctx :=
  { h with
    scope := fun name hname => by
      rw [h.scope name hname, Context.after, mem_append]
      exact ⟨fun hmem => hmem.elim id fun hmem => hassigned hmem, .inl⟩ }

/-- Each action has its code at its label. -/
theorem actions_of_yields {others : List Label} {ns : List Node}
    (h : (actions labels ns).Yields marks c u c')
    (hfits : ∀ n ∈ ns, n.Fits (.direct (some l)) ⟨walkNames params, []⟩)
    (hlength : labels.length = ns.length) (hforked : Forked l params (labels ++ others) c)
    (hsize : c'.body.size ≤ 65535) : Forked l params others c' ∧ ∀ M : Setting, c'.Grows M.code →
      ∀ (i : Nat) (target : Label) (n : Node), labels[i]? = some target → ns[i]? = some n →
        LeadsAt M l ⟨walkNames params, []⟩ target n := by
  induction labels generalizing ns c with
  | nil =>
    obtain ⟨-, rfl⟩ := yields_pure.mp h
    exact ⟨hforked, by simp⟩
  | cons target labels ih =>
    match ns, hlength with
    | n :: rest, hlength =>
      rw [forall_mem_cons] at hfits
      rw [actions_cons] at h
      obtain ⟨_, c1, hmark, h⟩ := yields_bind.mp h
      obtain ⟨_, c2, hemit, h⟩ := yields_bind.mp h
      obtain ⟨_, c3, hproceed, h⟩ := yields_bind.mp h
      have hgrows3 := growing_actions labels rest h
      have hgrows1 := (n.grown hemit).trans (growing_proceed hproceed)
      obtain ⟨hready1, hlocals1, hlive1, hdepth1, hnodup, hopen1, hplaced⟩ :=
        enter_of_yields hmark hforked
      obtain ⟨hready2, hkept, hleads⟩ := action_of_yields hfits.1 hemit hproceed hready1 hlive1
        hdepth1 (Nat.le_trans hgrows3.size_le hsize)
      have hready3 := ready_of_after hready2 (hfits.1.settled rfl)
      have hforked3 : Forked l params (labels ++ others) c3 :=
        ⟨hready3, locals_of_ready hlocals1 hgrows1 hready3, dead_of_proceed hproceed, hnodup,
          fun l' hl' => hkept l' _ (hopen1 l' hl')⟩
      obtain ⟨hforked', hall⟩ := ih h hfits.2 (by simpa using hlength) hforked3
      refine ⟨hforked', fun M hgrows i target' m htarget hm => ?_⟩
      cases i with
      | zero =>
        cases htarget
        cases hm
        exact ⟨_, _, hplaced M (hgrows1.trans (hgrows3.trans hgrows)), dead_of_proceed hproceed,
          hleads M (hgrows3.trans hgrows)⟩
      | succ i => exact hall M hgrows i target' m htarget hm

end Actions

/-! ## The whole code -/

/-- Makes the root the first pair and places the top of the loop. -/
def opening (root : Value) : Emit (Nat × Nat) := do
  let action ← localSlot actionName
  let argument ← localSlot argumentName
  loadConst root
  unpack 2
  storeLocal action
  storeLocal argument
  mark (← namedLabel loopLabel)
  return (action, argument)

/-- The top of the loop: a jump by the current action. -/
def fork (action count : Nat) : Emit (Label × List Label × Label) := do
  let exit ← newLabel
  let targets ← newLabels count
  let invalid ← newLabel
  loadLocal action
  jumpTable (exit :: targets) invalid
  return (exit, targets, invalid)

/-- The end of the walk. -/
def leaving (l : Label) (argument paramCount : Nat) : Emit Unit := do
  mark l
  loadLocal argument
  loadSlots 0 paramCount
  call paramCount
  ret

def refusal (l : Label) (action argument : Nat) : Emit Unit := do
  mark l
  loadLocal action
  loadLocal argument
  buildTuple 2
  invalidAction

theorem interpreter_eq (root : Value) (paramCount : Nat) (table : ActionTable) :
    interpreter root paramCount none table = (do
      let (action, argument) ← opening root
      let (exit, targets, invalid) ← fork action table.size
      leaving exit argument paramCount
      actions targets table.actions.toList
      refusal invalid action argument
      let p ← program
      report (.generated p.name p.chunk)
      return p) := by
  simp only [interpreter, opening, fork, leaving, refusal, bind_assoc, pure_bind]

section Whole

variable {root : Value} {exit invalid : Label}

/-- The first part makes the root the current pair. -/
theorem sim_opening (params : List Text) (hroot : root ≠ .noReceiver) :
    Sim M (.direct none) (do loadConst root; unpack 2; storeName actionName; storeName argumentName)
      ⟨walkNames params, []⟩ ⟨walkNames params, []⟩ 0 1 0 fun st => do
        Perform.handOver root
        return st := by
  have hnames : ∀ c : Code, c.Ready (.direct none) ⟨walkNames params, []⟩ →
      actionName ∈ c.locals ∧ argumentName ∈ c.locals := fun c hready =>
    ⟨(hready.scope _ trivial).mpr (by simp [walkNames]),
      (hready.scope _ trivial).mpr (by simp [walkNames])⟩
  refine (sim_seq 0 (by omega) (sim_loadConst hroot)
    (fun _ => Node.sim_handOver hnames)).adjust (by omega) fun st _ => ?_
  simp [Action.push]

/-- The buffer stands at the top of the loop. -/
structure AtTop (l : Label) (params : List Text) (c : Code) : Prop where
  ready : c.Ready (.direct (some l)) ⟨walkNames params, []⟩
  locals : c.locals = walkNames params
  live : c.reachable = true
  depth : c.depth = 0
  tables : c.tables = []
  placed : ∃ info, c.label? l = some info ∧ info.position = some c.body.size

theorem top_of_yields (h : (do mark (← namedLabel loopLabel)).Yields marks c u c')
    (hready : c.Ready (.direct none) ⟨walkNames params, []⟩) (hlocals : c.locals = walkNames params)
    (hlive : c.reachable = true) (hdepth : c.depth = 0) (htables : c.tables = [])
    (hnamed : c.namedLabels = []) : ∃ l, AtTop l params c' ∧ c'.body = c.body := by
  obtain ⟨l, c1, hname, hmark⟩ := yields_bind.mp h
  obtain ⟨hl, hc1⟩ := namedLabel_of_yields hname (by rw [hnamed]; rfl)
  have hopen : c1.Open l (-1) := by
    rw [hl, hc1]
    exact c.label?_labelled_new
  have hready1 : c1.Ready (.direct none) ⟨walkNames params, []⟩ := by
    rw [hc1]
    exact { hready.labelled with loop := fun _ h => nomatch h }
  obtain ⟨rfl, -⟩ := mark_of_open hmark hopen
  have hlabel : (c1.marked l ⟨none, -1⟩).label? l =
      some ⟨some c1.body.size, if c1.reachable then c1.depth else -1⟩ :=
    Code.label?_set_same rfl hopen
  have hlive1 : c1.reachable = true := by rw [hc1]; exact hlive
  have hdepth1 : c1.depth = 0 := by rw [hc1]; exact hdepth
  have hlocals1 : c1.locals = walkNames params := by rw [hc1]; exact hlocals
  have hready2 := hready1.marked hopen rfl (by simp only; omega)
  refine ⟨l, ⟨{ hready2 with loop := ?_ }, hlocals1, ?_, ?_, ?_, _, hlabel, rfl⟩, ?_⟩
  · rintro l' ⟨⟩
    refine ⟨by simp [hc1], ?_, ?_, _, _, hlabel, rfl, Nat.le_refl _, ?_⟩
    · simp [hlocals1, walkNames]
    · simp [hlocals1, walkNames]
    · simp [hlive1, hdepth1]
  · simp [hlive1]
  · simp [hlive1, hdepth1]
  · rw [hc1]
    exact htables
  · rw [hc1]
    rfl

/-- The pair has its slots behind those of the parameters. -/
theorem slots_of_yields {action argument : Nat} {c2 : Code} (hnodup : (walkNames params).Nodup)
    (hfirst : (localSlot actionName).Yields marks
      { name, paramCount := params.length, locals := params } action c1)
    (hsecond : (localSlot argumentName).Yields marks c1 argument c2) :
    action = params.length ∧ argument = params.length + 1 ∧
      c2 = { name, paramCount := params.length, locals := walkNames params } := by
  rw [walkNames, nodup_append] at hnodup
  have haction : actionName ∉ params := fun hmem =>
    hnodup.2.2 actionName hmem actionName (by simp) rfl
  have hargument : argumentName ∉ params ++ [actionName] := by
    rw [mem_append, not_or]
    exact ⟨fun hmem => hnodup.2.2 argumentName hmem argumentName (by simp) rfl, by decide⟩
  obtain ⟨rfl, rfl⟩ := yields_localSlot.mp hfirst
  rw [(Code.declared_of_not_mem (by exact haction)).1] at hsecond
  obtain ⟨rfl, rfl⟩ := yields_localSlot.mp hsecond
  refine ⟨(Code.declared_of_not_mem (by exact haction)).2, ?_, ?_⟩
  · rw [(Code.declared_of_not_mem (by exact hargument)).2]
    simp
  · rw [(Code.declared_of_not_mem (by exact hargument)).1]
    simp [walkNames]

/-- The code up to the top of the loop makes the root the current pair. -/
theorem opening_of_yields {slots : Nat × Nat} (hnodup : (walkNames params).Nodup)
    (hroot : root ≠ .noReceiver)
    (h : (opening root).Yields marks { name, paramCount := params.length, locals := params }
      slots c') (hsize : c'.body.size ≤ 65535) :
    slots = (params.length, params.length + 1) ∧ ∃ l, AtTop l params c' ∧
      ∀ M : Setting, c'.Grows M.code → ∀ s,
        M.Realizes (.direct none) 0 c' [] s ((do Perform.handOver root; return []) s) := by
  obtain ⟨action, c1, hlocal1, h⟩ := yields_bind.mp h
  obtain ⟨argument, c2, hlocal2, h⟩ := yields_bind.mp h
  obtain ⟨rfl, rfl, hc2⟩ := slots_of_yields hnodup hlocal1 hlocal2
  have hready : c2.Ready (.direct none) ⟨walkNames params, []⟩ := by
    rw [hc2]
    exact ready_new name params.length hnodup
  obtain ⟨_, c3, hconst, h⟩ := yields_bind.mp h
  obtain ⟨_, c4, hunpack, h⟩ := yields_bind.mp h
  obtain ⟨_, c5, haction, h⟩ := yields_bind.mp h
  obtain ⟨_, c6, hargument, h⟩ := yields_bind.mp h
  have hc3 := (pooled_of_yields hconst).symm
  have hc4 := yields_append.mp hunpack
  have hc5 := yields_append.mp haction
  have hc6 := yields_append.mp hargument
  have hslot : ∀ (d : Code), d.locals = c2.locals →
      d.slot? actionName = some params.length ∧
      d.slot? argumentName = some (params.length + 1) := by
    intro d hd
    rw [hc2] at hd
    constructor <;> refine Code.slot?_of_getElem? (by rw [hd]; exact hnodup) ?_ <;>
      simp [hd, walkNames]
  have hstart : (do loadConst root; unpack 2; storeName actionName; storeName argumentName).Yields
      marks c2 () c6 :=
    yields_bind.mpr ⟨_, _, hconst, yields_bind.mpr ⟨_, _, hunpack, yields_bind.mpr ⟨_, _,
      storeName_of_storeLocal haction (hslot c4 (by rw [← hc4, ← hc3]; rfl)).1,
      storeName_of_storeLocal hargument (hslot c5 (by rw [← hc5, ← hc4, ← hc3]; rfl)).2⟩⟩⟩
  obtain ⟨l, c7, hname, h⟩ := yields_bind.mp h
  obtain ⟨_, c8, hmark, h⟩ := yields_bind.mp h
  obtain ⟨rfl, rfl⟩ := yields_pure.mp h
  have htop : (do mark (← namedLabel loopLabel)).Yields marks c6 () c8 :=
    yields_bind.mpr ⟨_, _, hname, hmark⟩
  have hgrows : c6.Grows c8 := grows.bind (growing_namedLabel loopLabel) grows.markAny htop
  have hkept : c6.locals = c2.locals ∧ c6.tables = c2.tables ∧ c6.namedLabels = c2.namedLabels := by
    rw [← hc6, ← hc5, ← hc4, ← hc3]
    exact ⟨rfl, rfl, rfl⟩
  have hfresh : c2.reachable = true ∧ c2.depth = 0 ∧ c2.body.size = 0 ∧ c2.tables = [] ∧
      c2.namedLabels = [] ∧ c2.locals = walkNames params := by
    rw [hc2]
    exact ⟨rfl, rfl, rfl, rfl, rfl, rfl⟩
  obtain ⟨hlive, hdepth, hempty, htables, hnamed, hlocals⟩ := hfresh
  have hsim := fun M : Setting => sim_opening (M := M) params hroot
  obtain ⟨hready6, hflow, hlive6⟩ := (hsim .idle).keeps.step hstart hready (fun _ => hlive)
    (fun _ => by omega) (Nat.le_trans hgrows.size_le hsize)
  have hdepth6 : c6.depth = 0 := by
    rw [hflow.depth hlive (hlive6 rfl), hdepth]
    rfl
  obtain ⟨l', hat, hbody⟩ := top_of_yields htop hready6 (hkept.1.trans hlocals) (hlive6 rfl)
    hdepth6 (hkept.2.1.trans htables) (hkept.2.2.trans hnamed)
  refine ⟨rfl, l', hat, fun M hgrows' s => ?_⟩
  have hrun := (hsim M).run hstart hready hlive (by omega) (hgrows.trans hgrows') trivial [] s
    (by simp [hdepth])
  rw [hempty] at hrun
  refine hrun.leap (n := 0) (by rw [hbody]; omega) fun _ => ⟨hat.live, ?_, fun st1 s1 => ?_⟩
  · rw [hat.depth, hdepth6]
  · rw [hbody]
    exact .refl _ _

theorem newLabels_concat (h : (newLabels count).Yields marks c ls c1)
    (hlast : newLabel.Yields marks c1 l c') :
    (newLabels (count + 1)).Yields marks c (ls ++ [l]) c' := by
  induction count generalizing c ls with
  | zero =>
    obtain ⟨rfl, rfl⟩ := yields_pure.mp h
    exact yields_bind.mpr ⟨l, c', hlast, yields_bind.mpr ⟨[], c', yields_pure.mpr ⟨rfl, rfl⟩,
      yields_pure.mpr ⟨rfl, rfl⟩⟩⟩
  | succ count ih =>
    obtain ⟨l', c2, hfirst, h⟩ := yields_bind.mp h
    obtain ⟨rest, c3, hrest, h⟩ := yields_bind.mp h
    obtain ⟨rfl, rfl⟩ := yields_pure.mp h
    exact yields_bind.mpr ⟨l', c2, hfirst, yields_bind.mpr ⟨rest ++ [l], c', ih hrest,
      yields_pure.mpr ⟨rfl, rfl⟩⟩⟩

/-- The top of the loop goes on at the label for the action. -/
theorem fork_of_yields {targets : List Label}
    (h : (fork params.length count).Yields marks c (exit, targets, invalid) c')
    (hat : AtTop l params c) (hsize : c'.body.size ≤ 65535) :
    targets.length = count ∧ Forked l params (exit :: targets ++ [invalid]) c' ∧
      ∀ M : Setting, c'.Grows M.code → ∀ s q,
        M.Placed (TableSpec.labelFor ⟨exit :: targets, invalid⟩ (s.locals actionName)) q →
        ∃ n, M.Runs (n + 1) c.body.size [] s q [] s := by
  obtain ⟨_, c1, hexit, h⟩ := yields_bind.mp h
  obtain ⟨_, c2, htargets, h⟩ := yields_bind.mp h
  obtain ⟨_, c3, hinvalid, h⟩ := yields_bind.mp h
  obtain ⟨_, c4, hload, h⟩ := yields_bind.mp h
  obtain ⟨_, c5, hjump, h⟩ := yields_bind.mp h
  obtain ⟨heq, rfl⟩ := yields_pure.mp h
  cases heq
  have hlabels : (newLabels (count + 1 + 1)).Yields marks c (exit :: (targets ++ [invalid])) c3 :=
    yields_bind.mpr ⟨exit, c1, hexit, yields_bind.mpr ⟨targets ++ [invalid], c3,
      newLabels_concat htargets hinvalid, yields_pure.mpr ⟨rfl, rfl⟩⟩⟩
  have hgrows := growing_newLabels _ hlabels
  obtain ⟨hlength, hnodup, hopen, -, labels, hc3⟩ := newLabels_of_yields hlabels
  have hcount : targets.length = count := by simpa using hlength
  have hkept : c3.locals = walkNames params ∧ c3.reachable = true ∧ c3.depth = 0 ∧
      c3.tables = [] ∧ c3.body = c.body := by
    rw [hc3]
    exact ⟨hat.locals, hat.live, hat.depth, hat.tables, rfl⟩
  obtain ⟨hlocals3, hlive3, hdepth3, htables3, hbody3⟩ := hkept
  have hready3 : c3.Ready (.direct (some l)) ⟨walkNames params, []⟩ := by
    rw [hc3] at hgrows ⊢
    exact hat.ready.of_labels hgrows
  have hname : (loadName actionName).Yields marks c3 () c4 := by
    refine loadName_of_loadLocal hload (Code.slot?_of_getElem? hready3.nodup ?_)
    simp [hlocals3, walkNames]
  have hgrows4 := growing_jumpTable _ _ hjump
  have hsim : ∀ M : Setting, Sim M (.direct (some l)) (loadName actionName)
      ⟨walkNames params, []⟩ ⟨walkNames params, []⟩ 0 1 1 _ := fun M => sim_loadName trivial
  obtain ⟨hready4, hflow, -⟩ := (hsim .idle).keeps.step hname hready3 (fun _ => hlive3)
    (fun _ => by omega) (Nat.le_trans hgrows4.size_le hsize)
  have hc4 := yields_append.mp hload
  have hlive4 : c4.reachable = true := by
    rw [← hc4]
    exact hlive3
  have hdepth4 : c4.depth = 1 := by
    rw [hflow.depth hlive3 hlive4, hdepth3]
    rfl
  have htables4 : c4.tables = [] := by
    rw [← hc4]
    exact htables3
  have hopen4 : ∀ target ∈ exit :: targets ++ [invalid], ∃ e, c4.Open target e :=
    fun target htarget => ⟨-1, hflow.labels _ _ (by simp) (hopen target htarget).2⟩
  obtain ⟨hready5, hopen5, -, hbody5, hdead5, htables5⟩ :=
    ready_jumpTable hjump hready4 hlive4 (by omega) hopen4 hsize
  rw [htables4] at hbody5 htables5
  have hgrowing : Growing (loadLocal (params.length : Int)) := grows.append ..
  have hlocals5 := locals_of_ready hlocals3 ((hgrowing hload).trans hgrows4) hready5
  refine ⟨hcount, ⟨hready5, hlocals5, hdead5, hnodup, fun target htarget => ?_⟩,
    fun M hgrows5 s q hplaced => ?_⟩
  · have := hopen5 target htarget
    rwa [hdepth4] at this
  · have hrun := (hsim M).run hname hready3 hlive3 (by omega) (hgrows4.trans hgrows5) trivial [] s
      (by simp [hdepth3])
    rw [bind_of_ok (name_of_mem (by simp [walkNames]) s), hbody3] at hrun
    cases hrun with
    | value _ _ _ hruns =>
      have hins : M.code.body[c4.body.size]? = some ⟨.jumpTable, (0 : Nat)⟩ :=
        hgrows5.body_getElem? (by simp [hbody5])
      have htable : M.code.tables[0]? = some ⟨exit :: targets, invalid⟩ :=
        hgrows5.tables_getElem? (by simp [htables5])
      exact ⟨_, hruns.trans (Setting.runs_jumpTable hins (by omega) htable hplaced)⟩

theorem slot_of_walk (hready : c.Ready mode ctx) (hlocals : c.locals = walkNames params)
    (hsame : c'.locals = c.locals) {i : Nat} (hname : (walkNames params)[i]? = some name) :
    c'.slot? name = some i :=
  Code.slot?_of_getElem? (hsame ▸ hready.nodup) (by rw [hsame, hlocals, hname])

/-- The code at the exit calls the argument. -/
theorem leaving_of_yields (h : (leaving exit (params.length + 1) params.length).Yields marks c u c')
    (hforked : Forked l params (exit :: labels) c) (hsize : c'.body.size ≤ 65535) :
    Forked l params labels c' ∧ ∀ M : Setting, c'.Grows M.code → ∃ q, M.Placed exit q ∧
      ∀ s result h', M.call (s.locals argumentName) (params.map s.locals) [] s.heap = (result, h') →
        ∃ n, M.Finishes n q [] s result h' := by
  obtain ⟨_, c1, hmark, h⟩ := yields_bind.mp h
  obtain ⟨_, c2, hload, h⟩ := yields_bind.mp h
  obtain ⟨_, c3, hslots, h⟩ := yields_bind.mp h
  obtain ⟨_, c4, hcall, h⟩ := yields_bind.mp h
  obtain rfl := yields_ret.mp h
  obtain ⟨hready1, hlocals1, -⟩ := enter_of_yields hmark hforked
  have hc2 := yields_append.mp hload
  have hexit : (do loadName argumentName; loadNames params; call params.length).Yields marks c1 ()
      c4 := by
    refine yields_bind.mpr ⟨_, _, loadName_of_loadLocal hload
      (slot_of_walk hready1 hlocals1 rfl ?_),
      yields_bind.mpr ⟨_, _, loadNames_of_loadSlots hslots fun i name hname => ?_, hcall⟩⟩
    · simp [walkNames]
    · rw [Nat.zero_add]
      refine slot_of_walk hready1 hlocals1 (by rw [← hc2]; rfl) ?_
      rw [walkNames, List.getElem?_append_left (List.getElem?_eq_some_iff.mp hname).1, hname]
  have hsim : ∀ M : Setting, Sim M (.direct (some l)) (do
      loadName argumentName; loadNames params; call params.length) ⟨walkNames params, []⟩
      ⟨walkNames params, []⟩ 0 1 1 (pushes (Perform.callOut M.call params)) :=
    fun M => sim_exit (fun _ => trivial) (by simp [walkNames])
  obtain ⟨hforked', hruns⟩ := end_of_yields hsim hmark hexit hforked hsize
  refine ⟨hforked', fun M hgrows => ?_⟩
  obtain ⟨hplaced, hret, hrealizes⟩ := hruns M hgrows
  exact ⟨_, hplaced, fun s result h' => finishes_exit hret (hrealizes s)⟩

/-- The code for what is no action ends the walk with an error. -/
theorem refusal_of_yields
    (h : (refusal invalid params.length (params.length + 1)).Yields marks c u c')
    (hforked : Forked l params [invalid] c) (hsize : c'.body.size ≤ 65535) :
    Forked l params [] c' ∧ ∀ M : Setting, c'.Grows M.code → ∃ q, M.Placed invalid q ∧
      ∀ s pair h', Run.newTuple [s.locals actionName, s.locals argumentName] s.heap =
        (.ok pair, h') →
        ∃ n, M.Finishes n q [] s (.error (.error (Machine.invalidAction h' pair))) h' := by
  obtain ⟨_, c1, hmark, h⟩ := yields_bind.mp h
  obtain ⟨_, c2, haction, h⟩ := yields_bind.mp h
  obtain ⟨_, c3, hargument, h⟩ := yields_bind.mp h
  obtain ⟨_, c4, htuple, h⟩ := yields_bind.mp h
  obtain rfl := yields_invalidAction.mp h
  obtain ⟨hready1, hlocals1, -⟩ := enter_of_yields hmark hforked
  have hc2 := yields_append.mp haction
  have hrefusal : (do loadName actionName; loadName argumentName; buildTuple 2).Yields marks c1 ()
      c4 := by
    refine yields_bind.mpr ⟨_, _, loadName_of_loadLocal haction
      (slot_of_walk hready1 hlocals1 rfl ?_), yields_bind.mpr ⟨_, _, loadName_of_loadLocal hargument
        (slot_of_walk hready1 hlocals1 (by rw [← hc2]; rfl) ?_), htuple⟩⟩
    · simp [walkNames]
    · simp [walkNames]
  have hsim : ∀ M : Setting, Sim M (.direct (some l)) (do
      loadName actionName; loadName argumentName; buildTuple 2) ⟨walkNames params, []⟩
      ⟨walkNames params, []⟩ 0 1 1 (pushes Perform.pairUp) :=
    fun M => sim_refusal (fun _ => trivial) (by simp [walkNames])
  obtain ⟨hforked', hruns⟩ := end_of_yields hsim hmark hrefusal hforked hsize
  refine ⟨hforked', fun M hgrows => ?_⟩
  obtain ⟨hplaced, hend, hrealizes⟩ := hruns M hgrows
  exact ⟨_, hplaced, fun s pair h' => finishes_refusal hend (hrealizes s)⟩

end Whole

end Emit

end ExprBackend
