import ExprBackend.Proofs.DispatchLoop

/-! # Generated functions walk trees

Every pass through the loop of a generated function is a pass of a walk, so a walk
of any length is followed by induction on its passes. A walk that does not end
keeps the function running for ever.
-/

namespace ExprBackend

open List Machine

/-! ## Passes -/

variable {M : Setting} {c : Code} {count : Nat} {l : Label} {marks : Marks} {n : Node} {name : Text}
  {p : Program} {params : List Text} {root : Value} {t : ActionTable}

theorem Setting.Placed.ne_none {p : Nat} (h : M.Placed l p) : l ≠ Label.none := by
  obtain ⟨info, hlabel, -⟩ := h
  rintro rfl
  exact absurd (Code.lt_of_label? hlabel).1 (by decide)

/-- The code has a loop that walks trees. -/
structure Setting.Dispatches (M : Setting) (l : Label) (params : List Text)
    (ns : List Node) (top : Nat) (exit : Label) (targets : List Label)
    (invalid : Label) : Prop where
  head : M.HeadAt (.direct (some l)) top
  length : targets.length = ns.length
  /-- The top goes on at the label for the action. -/
  jumps : ∀ s q, M.Placed (TableSpec.labelFor ⟨exit :: targets, invalid⟩ (s.locals actionName)) q →
    ∃ n, M.Runs (n + 1) top [] s q [] s
  leaves : ∃ q, M.Placed exit q ∧ ∀ s result h',
    M.call (s.locals argumentName) (params.map s.locals) [] s.heap = (result, h') →
      ∃ n, M.Finishes n q [] s result h'
  leads : ∀ (i : Nat) (target : Label) (n : Node), targets[i]? = some target → ns[i]? = some n →
    Emit.LeadsAt M l ⟨walkNames params, []⟩ target n
  refuses : ∃ q, M.Placed invalid q ∧ ∀ s pair h',
    Run.newTuple [s.locals actionName, s.locals argumentName] s.heap = (.ok pair, h') →
      ∃ n, M.Finishes n q [] s (.error (.error (invalidAction h' pair))) h'

namespace Setting.Dispatches

variable {ns : List Node} {top : Nat} {exit invalid : Label} {targets : List Label} {m : Nat}
  {s s' : Scene} {i : Int64}

/-- The code takes a turn, from a place to the top of the loop or to the end. It takes at least so
many steps to the top. -/
def Takes (M : Setting) (top count k : Nat) (s : Scene) : Turn Scene → Prop
  | .again s' => ∃ n, count ≤ n ∧ M.Runs n k [] s top [] s'
  | .over result h => ∃ n, M.Finishes n k [] s result h

/-- A turn is taken after steps that lead to the top. -/
theorem takes_after {n k : Nat} {turn : Turn Scene} (hruns : M.Runs n k [] s top [] s')
    (h : Takes M top count top s' turn) (hle : m ≤ n + count) : Takes M top m k s turn := by
  cases turn with
  | again s'' =>
    obtain ⟨n', hcount, hrest⟩ := h
    exact ⟨n + n', by omega, hruns.trans hrest⟩
  | «over» result h' =>
    obtain ⟨n', hrest⟩ := h
    exact ⟨n + n', hruns.finishes hrest⟩

theorem eq_top (h : M.Dispatches l params ns top exit targets invalid) {p : Nat}
    (hp : M.HeadAt (.direct (some l)) p) : p = top := by
  obtain ⟨l₁, info₁, hhead₁, hlabel₁, hposition₁⟩ := hp
  obtain ⟨l₂, info₂, hhead₂, hlabel₂, hposition₂⟩ := h.head
  cases hhead₁
  cases hhead₂
  rw [hlabel₁] at hlabel₂
  cases hlabel₂
  rw [hposition₁] at hposition₂
  exact Option.some.inj hposition₂

/-- Code that goes on with a pair hands it over. -/
theorem takes_goOn (h : M.Dispatches l params ns top exit targets invalid) {q : Nat} {pair : Value}
    (hruns : M.Runs (m + 1) top [] s q [] s)
    (hrealizes : M.Realizes (.direct (some l)) q c [] s (.error (.transfer pair), s')) :
    Takes M top 1 top s (Scene.goOn (.ok pair, s')) := by
  cases hrealizes with
  | transfer hhead hover hback =>
    rw [Scene.goOn, hover]
    obtain rfl := h.eq_top hhead
    exact ⟨_, by omega, hruns.trans hback⟩
  | refusal _ hover hstops =>
    rw [Scene.goOn, hover]
    exact ⟨_, hruns.finishes hstops.finishes⟩

theorem takes_carryOut (h : M.Dispatches l params ns top exit targets invalid) {target : Label}
    (hlabel : TableSpec.labelFor ⟨exit :: targets, invalid⟩ (s.locals actionName) = target)
    (hleads : Emit.LeadsAt M l ⟨walkNames params, []⟩ target n) : Takes M top 1 top s (Scene.goOn
      (n.perform M.call M.closure.globals Gate.opened ⟨walkNames params, []⟩ s)) := by
  obtain ⟨q, c, hplaced, hdead, hrealizes⟩ := hleads
  obtain ⟨m, hruns⟩ := h.jumps s q (hlabel ▸ hplaced)
  have hrun := hrealizes s
  rw [Emit.leads, bind_apply] at hrun
  generalize (n.perform M.call M.closure.globals Gate.opened ⟨walkNames params, []⟩ s :
    Except Exit Value × Scene) = outcome at hrun ⊢
  obtain ⟨(f | pair) | pair, s'⟩ := outcome
  · cases hrun with
    | failure _ hstops => exact ⟨_, hruns.finishes hstops.finishes⟩
  · exact h.takes_goOn hruns hrun
  · exact h.takes_goOn hruns hrun

theorem takes_refuse (h : M.Dispatches l params ns top exit targets invalid)
    (hlabel : TableSpec.labelFor ⟨exit :: targets, invalid⟩ (s.locals actionName) = invalid) :
    Takes M top 1 top s (Walk.refuse (s.locals actionName) (s.locals argumentName) s.heap) := by
  obtain ⟨q, hplaced, hfinishes⟩ := h.refuses
  obtain ⟨m, hruns⟩ := h.jumps s q (by rw [hlabel]; exact hplaced)
  obtain ⟨pair, h', htuple, hrefuse⟩ :=
    @Walk.refuse_eq Scene (s.locals actionName) (s.locals argumentName) s.heap
  rw [hrefuse]
  obtain ⟨n, hfinish⟩ := hfinishes s pair h' htuple
  exact ⟨_, hruns.finishes hfinish⟩

theorem takes_call (h : M.Dispatches l params ns top exit targets invalid)
    (hlabel : TableSpec.labelFor ⟨exit :: targets, invalid⟩ (s.locals actionName) = exit)
    {result : Except Failure Value} {h' : Heap}
    (hcall : M.call (s.locals argumentName) (params.map s.locals) [] s.heap = (result, h')) :
    Takes M top 1 top s (.over result h') := by
  obtain ⟨q, hplaced, hfinishes⟩ := h.leaves
  obtain ⟨m, hruns⟩ := h.jumps s q (by rw [hlabel]; exact hplaced)
  obtain ⟨n, hfinish⟩ := hfinishes s result h' hcall
  exact ⟨_, hruns.finishes hfinish⟩

/-- The number of an action leads to the label at its place. -/
theorem labelFor_of_action? (h : M.Dispatches l params ns top exit targets invalid)
    (hns : ns = t.actions.toList) (hn : t.action? i.toInt = some n) :
    ∃ target, TableSpec.labelFor ⟨exit :: targets, invalid⟩ (.int i) = target ∧
      Emit.LeadsAt M l ⟨walkNames params, []⟩ target n := by
  rw [ActionTable.action?] at hn
  split at hn
  next hpos =>
    have hplace : ns[(i.toInt - 1).toNat]? = some n := by simpa [hns] using hn
    have hlt : (i.toInt - 1).toNat < targets.length := by
      rw [h.length]
      exact (List.getElem?_eq_some_iff.mp hplace).1
    have htarget := List.getElem?_eq_getElem hlt
    have hleads := h.leads _ _ n htarget hplace
    obtain ⟨q, c, hplaced, -⟩ := hleads
    refine ⟨_, ?_, h.leads _ _ n htarget hplace⟩
    have hsucc : i.toInt.toNat = (i.toInt - 1).toNat + 1 := by omega
    rw [TableSpec.labelFor, if_pos (by omega), hsucc, getElem?_cons_succ, htarget]
    simp only [hplaced.ne_none, if_false]
  next => cases hn

/-- What is the number of no action leads to the end for that. -/
theorem labelFor_of_none (h : M.Dispatches l params ns top exit targets invalid)
    (hns : ns = t.actions.toList) (hnonzero : i.toInt ≠ 0) (hn : t.action? i.toInt = none) :
    TableSpec.labelFor ⟨exit :: targets, invalid⟩ (.int i) = invalid := by
  rw [TableSpec.labelFor]
  split
  next hnonneg =>
    have hsucc : i.toInt.toNat = (i.toInt - 1).toNat + 1 := by omega
    rw [ActionTable.action?, if_pos (by omega)] at hn
    have hle : targets.length ≤ (i.toInt - 1).toNat := by
      rw [h.length, hns]
      simpa using hn
    rw [hsucc, getElem?_cons_succ, getElem?_eq_none hle]
  next => rfl

/-- The code takes a pass. -/
theorem takes_pass (h : M.Dispatches l params t.actions.toList top exit targets invalid)
    (s : Scene) : Takes M top 1 top s (s.pass M.call M.closure.globals t params) := by
  obtain ⟨_, hexit, -⟩ := h.leaves
  rw [Scene.pass, Walk.choose.eq_def]
  split
  next i hi =>
    split
    next hzero =>
      refine h.takes_call ?_ rfl
      simp [hi, TableSpec.labelFor, hzero, hexit.ne_none]
    next hnonzero =>
      cases hn : t.action? i.toInt with
      | some n =>
        obtain ⟨target, hlabel, hleads⟩ := h.labelFor_of_action? rfl hn
        exact h.takes_carryOut (hi ▸ hlabel) hleads
      | none => exact h.takes_refuse (hi ▸ h.labelFor_of_none rfl hnonzero hn)
  next hother =>
    refine h.takes_refuse ?_
    rw [TableSpec.labelFor]
    exact hother

/-- The code takes so many passes. -/
theorem takes_passes (h : M.Dispatches l params t.actions.toList top exit targets invalid)
    (count : Nat) (s : Scene) : Takes M top count top s
      (Turn.passes (Scene.pass M.call M.closure.globals t params) count s) := by
  induction count generalizing s with
  | zero => exact ⟨0, Nat.le_refl 0, .refl _ _⟩
  | succ count ih =>
    have hpass := h.takes_pass s
    rw [Turn.passes]
    cases hturn : s.pass M.call M.closure.globals t params with
    | again s' =>
      rw [hturn] at hpass
      obtain ⟨n, hpos, hruns⟩ := hpass
      exact takes_after hruns (ih s') (by omega)
    | «over» result h' =>
      rw [hturn] at hpass
      exact hpass

end Setting.Dispatches

/-! ## Generated code -/

namespace Emit

variable {c' : Code} {u : Unit}

theorem size_of_loadSlots {first : Nat} (h : (loadSlots first count).Yields marks c u c') :
    c'.body.size = c.body.size + count := by
  induction count generalizing c first with
  | zero =>
    obtain ⟨-, rfl⟩ := yields_pure.mp h
    rfl
  | succ count ih =>
    obtain ⟨_, c₁, hload, h⟩ := yields_bind.mp h
    obtain rfl := yields_append.mp hload
    rw [ih h, Code.appended_body, Array.size_push]
    omega

/-- There is room for the parameters in code that loads them all. -/
theorem length_le_of_leaving {argument : Nat} (h : (leaving l argument count).Yields marks c u c') :
    count + 1 ≤ c'.body.size := by
  obtain ⟨_, c₁, -, h⟩ := yields_bind.mp h
  obtain ⟨_, c₂, hload, h⟩ := yields_bind.mp h
  obtain ⟨_, c₃, hslots, h⟩ := yields_bind.mp h
  have hc₂ : c₂.body.size = c₁.body.size + 1 := by
    rw [← yields_append.mp hload, Code.appended_body, Array.size_push]
  have hc₃ := size_of_loadSlots hslots
  have hrest : Growing (do call (count : Int); ret) :=
    grows.bind (grows.append ..) fun _ => grows.ret
  have := (hrest h).size_le
  omega

theorem growing_opening (root : Value) : Growing (opening root) :=
  grows.bind (grows.localSlot _) fun _ => grows.bind (grows.localSlot _) fun _ =>
    grows.bind (grows.loadConst root) fun _ => grows.bind (grows.append ..) fun _ =>
      grows.bind (grows.append ..) fun _ => grows.bind (grows.append ..) fun _ =>
        grows.bind (growing_namedLabel _) fun l => grows.bind (grows.markAny l) fun _ =>
          grows.pure _

theorem growing_fork (action count : Nat) : Growing (fork action count) :=
  grows.newLabel fun _ => grows.bind (growing_newLabels count) fun _ =>
    grows.newLabel fun _ => grows.bind (grows.append ..) fun _ =>
      grows.bind (growing_jumpTable _ _) fun _ => grows.pure _

theorem growing_leaving (l : Label) (argument count : Nat) : Growing (leaving l argument count) :=
  grows.bind (grows.markAny l) fun _ => grows.bind (grows.append ..) fun _ =>
    grows.bind (growing_loadSlots 0 count) fun _ => grows.bind (grows.append ..) fun _ =>
      grows.ret

theorem growing_refusal (l : Label) (action argument : Nat) : Growing (refusal l action argument) :=
  grows.bind (grows.markAny l) fun _ => grows.bind (grows.append ..) fun _ =>
    grows.bind (grows.append ..) fun _ => grows.bind (grows.append ..) fun _ =>
      grows.bind (grows.append ..) fun _ => Code.Progress.update fun c => c.grows_ended

/-- What the code of a function for a table and a root does once it is assembled. -/
structure Interprets (params : List Text) (t : ActionTable) (root : Value) (c : Code) : Prop where
  locals : c.locals = walkNames params
  length : (walkNames params).length ≤ 65536
  prologue : c.prologue = #[]
  maxDepth_nonneg : 0 ≤ c.maxDepth
  maxDepth_le : c.maxDepth ≤ 65536
  runs : ∃ l top exit targets invalid, ∀ M : Setting, M.code = c →
    M.Dispatches l params t.actions.toList top exit targets invalid ∧
      ∀ s s', Perform.handOver root s = (.ok (), s') → ∃ n, M.Runs n 0 [] s top [] s'

/-- The parts of the code fit together. -/
theorem interpreter_of_yields (hnodup : (walkNames params).Nodup) (hroot : root ≠ .noReceiver)
    (ht : ∀ n ∈ t.actions.toList, ∀ l, n.Fits (.direct (some l)) ⟨walkNames params, []⟩)
    (h : (interpreter root params.length none t).Yields marks
      { name, paramCount := params.length, locals := params } p c') :
    ∃ c, Interprets params t root c ∧ Assembled c p.chunk ∧ p.params = params := by
  rw [interpreter_eq] at h
  obtain ⟨⟨action, argument⟩, c₁, hopening, h⟩ := yields_bind.mp h
  obtain ⟨⟨exit, targets, invalid⟩, c₂, hfork, h⟩ := yields_bind.mp h
  obtain ⟨_, c₃, hleaving, h⟩ := yields_bind.mp h
  obtain ⟨_, c₄, hactions, h⟩ := yields_bind.mp h
  obtain ⟨_, c₅, hrefusal, h⟩ := yields_bind.mp h
  obtain ⟨p', c₆, hprogram, h⟩ := yields_bind.mp h
  obtain ⟨_, c₇, -, h⟩ := yields_bind.mp h
  obtain ⟨rfl, -⟩ := yields_pure.mp h
  obtain ⟨hassembled, hparams⟩ := program_of_yields hprogram
  -- Each part has room in the code, since the whole has.
  have hsize₅ : c₅.body.size ≤ 65535 := hassembled.body_size_le
  have hgrows₅ := growing_refusal _ _ _ hrefusal
  have hgrows₄ := (growing_actions _ _ hactions).trans hgrows₅
  have hgrows₃ := (growing_leaving _ _ _ hleaving).trans hgrows₄
  have hgrows₂ := (growing_fork _ _ hfork).trans hgrows₃
  obtain ⟨hslots, l, hat, hstart⟩ := opening_of_yields hnodup hroot hopening
    (Nat.le_trans hgrows₂.size_le hsize₅)
  cases hslots
  obtain ⟨hcount, hforked, hjumps⟩ := fork_of_yields hfork hat
    (Nat.le_trans hgrows₃.size_le hsize₅)
  obtain ⟨hforked₃, hleaves⟩ := leaving_of_yields hleaving hforked
    (Nat.le_trans hgrows₄.size_le hsize₅)
  have hlength : targets.length = t.actions.toList.length := by
    simpa [ActionTable.size] using hcount
  obtain ⟨hforked₄, hleads⟩ := actions_of_yields hactions (fun n hn => ht n hn l) hlength hforked₃
    (Nat.le_trans hgrows₅.size_le hsize₅)
  obtain ⟨hforked₅, hrefuses⟩ := refusal_of_yields hrefusal hforked₄ hsize₅
  have hroom : params.length + 1 ≤ 65535 :=
    Nat.le_trans (length_le_of_leaving hleaving) (Nat.le_trans hgrows₄.size_le hsize₅)
  have hready := hforked₅.ready
  refine ⟨c₅, ⟨hforked₅.locals, ?_, hready.interception.2, hready.maxDepth_nonneg, ?_, l,
    c₁.body.size, exit, targets, invalid, ?_⟩, hassembled, ?_⟩
  · simp only [walkNames, length_append, length_cons, length_nil]
    omega
  · have := hready.maxDepth_le
    omega
  · rintro M rfl
    obtain ⟨info, hlabel, hposition⟩ := hat.placed
    refine ⟨⟨⟨l, info, rfl, hgrows₂.placed l info hlabel (by rw [hposition]; rfl), hposition⟩,
      hlength, hjumps M hgrows₃, hleaves M hgrows₄, hleads M hgrows₅, hrefuses M (.refl _)⟩,
      fun s s' hover => ?_⟩
    have hrun := hstart M hgrows₂ s
    rw [bind_of_ok hover] at hrun
    cases hrun with
    | value _ _ _ hruns => exact ⟨_, hruns⟩
  · have hcode : c₅.paramCount = params.length := by
      have hgrows₁ := growing_opening root hopening
      exact (hgrows₁.trans hgrows₂).paramCount
    have hlocals : c₅.locals = params ++ [actionName, argumentName] := hforked₅.locals
    exact Code.params_eq hlocals hcode hparams

end Emit

/-! ## Generated functions -/

section Functions

variable {globals : Bindings} {h₀ h₁ : Heap} {f : Value} {h : Heap}

theorem nodup_walkNames (hnodup : params.Nodup)
    (hfree : params.find? (reservedNames.contains ·) = none) : (walkNames params).Nodup := by
  rw [find?_eq_none] at hfree
  refine nodup_append.mpr ⟨hnodup, by decide, fun param hparam other hother heq => ?_⟩
  refine hfree param hparam ?_
  subst heq
  rcases mem_cons.mp hother with rfl | hother
  · rfl
  · rw [mem_singleton.mp hother]
    rfl

/-- The root stays a pair when a cell is added. -/
theorem items?_alloc {v a b : Value} (hitems : h.items? v = some [a, b]) (cell : Cell) :
    (h.alloc cell).2.items? v = some [a, b] := by
  have hkept : ∀ r : Ref, h.cells[r]? ≠ none → (h.alloc cell).2.cells[r]? = h.cells[r]? := by
    intro r hr
    have hlt : r < h.cells.size := by
      by_contra hle
      exact hr (Array.getElem?_eq_none (Nat.not_lt.mp hle))
    simp [Heap.alloc, Array.getElem?_push, Nat.ne_of_lt hlt]
  cases v with
  | list r =>
    have hcell : h.cells[r]? ≠ none := by
      intro hnone
      simp [Heap.items?, Heap.list, Heap.listItems, hnone] at hitems
    simp only [Heap.items?, Heap.list, Heap.listItems, hkept r hcell] at hitems ⊢
    exact hitems
  | tuple r =>
    have hcell : h.cells[r]? ≠ none := by
      intro hnone
      simp [Heap.items?, Heap.tuple, hnone] at hitems
    simp only [Heap.items?, Heap.tuple, hkept r hcell] at hitems ⊢
    exact hitems
  | _ => cases hitems

/-- What is generated is the code of an interpreter, for a root that is a pair. -/
theorem generateProgram_of_ok (hnodup : params.Nodup)
    (h : (t.generateProgram h₀ marks none root name params).1 = .ok p) :
    (walkNames params).Nodup ∧ (∃ a b, h₀.items? root = some [a, b]) ∧ ∃ c',
      (Emit.interpreter root params.length none t).Yields marks
        { name, paramCount := params.length, locals := params } p c' := by
  rw [ActionTable.generateProgram] at h
  split at h
  next => cases h
  next hpair =>
    cases hfree : params.find? (reservedNames.contains ·) with
    | some param =>
      rw [hfree] at h
      cases h
    | none =>
      rw [hfree, Code.create_eq name hnodup] at h
      rw [not_not, Option.map_eq_some_iff] at hpair
      obtain ⟨items, hitems, hlength⟩ := hpair
      obtain ⟨a, b, rfl⟩ := length_eq_two.mp hlength
      exact ⟨nodup_walkNames hnodup hfree, ⟨a, b, hitems⟩, _, Prod.ext h rfl⟩

/-- A function that has been generated is in the heap, and so is its code. -/
theorem generate_of_ok {cache : Option Nat}
    (h : t.generate marks cache root name params globals h₀ = (.ok f, h₁)) :
    ∃ p r closure, (t.generateProgram h₀ marks cache root name params).1 = .ok p ∧
      f = .function r ∧ h₁.function? r = some (.compiled closure) ∧ closure.params = p.params ∧
      closure.globals = globals ∧ h₁.chunk closure.chunk = p.chunk ∧
      ∀ a b, h₀.items? root = some [a, b] → h₁.items? root = some [a, b] := by
  rw [ActionTable.generate, bind_apply, get_apply] at h
  cases hprogram : (t.generateProgram h₀ marks cache root name params).1 with
  | error failure =>
    simp only [hprogram] at h
    cases h
  | ok p =>
    simp only [hprogram] at h
    cases h
    refine ⟨p, h₀.cells.size, ⟨p.name, p.params, h₀.chunks.size, globals⟩, rfl, rfl, ?_, rfl, rfl,
      ?_, fun a b hitems => ?_⟩
    · simp [Heap.function?]
    · simp [Heap.chunk]
    · exact items?_alloc (h := (h₀.allocChunk p.chunk).2) hitems _

/-- How an activation of a generated function begins: it makes the root the first pair and gets to
the top of the loop, where the place of the loop is the same for all activations. -/
structure Begins (params : List Text) (t : ActionTable) (place : Nat) (call : Caller)
    (closure : Closure) (chunk : Chunk) (args : List Value) (h : Heap) (w : Walk) : Prop where
  activates : ∀ limit, activate call limit closure args [] h =
    loop (step call closure chunk) limit (startFrame chunk args) h
  loops : ∃ (M : Setting) (l : Label) (top : Nat) (exit : Label) (targets : List Label)
      (invalid : Label), M.call = call ∧ M.closure = closure ∧ M.chunk = chunk ∧
    M.code.locals = walkNames params ∧ M.code.place top = place ∧
    M.Dispatches l params t.actions.toList top exit targets invalid ∧
    ∃ (n : Nat) (s : Scene), s.Shows params w ∧ Machine.Reaches M.step n (startFrame chunk args) h
      (M.frame top s.locals []) s.heap

/-- Every activation of a function that has been generated begins so. -/
theorem begins_of_generate (hnodup : params.Nodup)
    (ht : ∀ n ∈ t.actions.toList, n.Everywhere Node.Built ∧ n.Everywhere Node.Valued ∧
      n.assigned ⊆ params)
    (hgenerate : t.generate marks none root name params globals h₀ = (.ok f, h₁)) :
    (walkNames params).Nodup ∧ ∃ r closure place, f = .function r ∧
      h₁.function? r = some (.compiled closure) ∧ closure.globals = globals ∧
      (∃ action argument, h₁.items? root = some [action, argument]) ∧
      ∀ (call : Caller) (h : Heap) (args : List Value) (action argument : Value),
        args.length = params.length → h.chunk closure.chunk = h₁.chunk closure.chunk →
        h.items? root = some [action, argument] →
        Begins params t place call closure (h.chunk closure.chunk) args h
          ⟨action, argument, args, h⟩ := by
  obtain ⟨p, r, closure, hp, hf, hfunction, hclosure, hglobals, hstored, hkept⟩ :=
    generate_of_ok hgenerate
  obtain ⟨hnames, ⟨a, b, hitems⟩, c', hyields⟩ := generateProgram_of_ok hnodup hp
  have hroot : root ≠ .noReceiver := by
    rintro rfl
    cases hitems
  have hfits : ∀ n ∈ t.actions.toList, ∀ l, n.Fits (.direct (some l)) ⟨walkNames params, []⟩ := by
    intro n hn l
    obtain ⟨hbuilt, hvalued, hassigned⟩ := ht n hn
    exact ⟨fun m hm => ⟨hbuilt m hm, hvalued m hm, fun _ _ => trivial, fun _ => rfl⟩,
      fun _ => Subset.trans hassigned (subset_append_left _ _)⟩
  obtain ⟨c, hinterprets, hassembled, hparams⟩ :=
    Emit.interpreter_of_yields hnames hroot hfits hyields
  obtain ⟨l, top, exit, targets, invalid, hruns⟩ := hinterprets.runs
  refine ⟨hnames, r, closure, c.place top, hf, hfunction, hglobals, ⟨a, b, hkept a b hitems⟩,
    fun call h args action argument hargs hheld hpair => ?_⟩
  have hchunk : h.chunk closure.chunk = p.chunk := hheld.trans hstored
  rw [hchunk]
  refine ⟨fun limit => ?_, ?_⟩
  · rw [← hchunk]
    refine activate_eq call limit (bindArguments_eq closure.name ?_) ?_ ?_
    · rw [hargs, hclosure, hparams]
    · rw [hchunk, hassembled.maxStack]
      exact hinterprets.maxDepth_nonneg
    · rw [hchunk, hassembled.maxStack]
      exact Int.le_trans hinterprets.maxDepth_le (by decide)
  · let M : Setting :=
      { call, closure, code := c, chunk := p.chunk, assembled := hassembled,
        nodup := by rw [hinterprets.locals]; exact hnames,
        locals_le := by rw [hinterprets.locals]; exact hinterprets.length }
    obtain ⟨hdispatches, hopening⟩ := hruns M rfl
    have hlocals : M.code.locals = params ++ [actionName, argumentName] := hinterprets.locals
    have hplace : M.code.place 0 = 0 := by
      rw [Code.place, show M.code.prologue = #[] from hinterprets.prologue]
      rfl
    have hstart : startFrame p.chunk args =
        M.frame 0 (Setting.argument params args) [] := by
      rw [Setting.frame, hplace]
      exact M.startFrame_eq hlocals hargs
    -- The pair is handed over before the first pass.
    have hover := Scene.handOver_eq root ⟨h, Setting.argument params args⟩
    simp only [hpair] at hover
    obtain ⟨n, hreaches⟩ := hopening _ _ hover
    have hshows := Scene.shows_handed (s := ⟨h, Setting.argument params args⟩) hnames
      (Setting.map_argument hnodup hargs) action argument
    refine ⟨M, l, top, exit, targets, invalid, rfl, rfl, rfl, hinterprets.locals, rfl, hdispatches,
      n, _, hshows, ?_⟩
    rw [hstart]
    exact hreaches

/-- An activation that begins so takes the passes of any machine that its scenes follow: after so
many passes it stands at the top of the loop, with an empty stack and the names of the machine in
its locals, or it has ended as the machine has. If the machine does not end, it does not return. -/
theorem Begins.follows {place : Nat} {call : Caller} {closure : Closure} {chunk : Chunk}
    {args : List Value} {w : Walk} (hbegins : Begins params t place call closure chunk args h w)
    {σ : Type} {R : Scene → σ → Prop} {pass : σ → Turn σ} {locals : σ → List Value}
    {heap : σ → Heap}
    (hpass : ∀ s m, R s m → Turn.Rel R (Scene.pass call closure.globals t params s) (pass m))
    (hlocals : ∀ s m, R s m → (walkNames params).map s.locals = locals m)
    (hheap : ∀ s m, R s m → s.heap = heap m) {start : σ}
    (hstart : ∀ s : Scene, s.Shows params w → R s start) :
    (∀ count m, Turn.passes pass count start = .again m → ∃ steps, count ≤ steps ∧
      Machine.Reaches (step call closure chunk) steps (startFrame chunk args) h
        ⟨(locals m).toArray, [], place⟩ (heap m)) ∧
    (∀ count result h', Turn.passes pass count start = .over result h' →
      ∃ steps, ∀ limit, steps ≤ limit →
        activate call limit closure args [] h = (result, h')) ∧
    ((∀ count, ∃ m, Turn.passes pass count start = .again m) →
      ∀ limit, (activate call limit closure args [] h).1 = .error .exhausted) := by
  obtain ⟨hactivates, M, l, top, exit, targets, invalid, rfl, hclosure, hcode, hnames, rfl,
    hdispatches, n, s, hshows, hreaches⟩ := hbegins
  have hstep : M.step = step M.call closure chunk := by
    rw [Setting.step, hclosure, hcode]
  rw [hstep] at hreaches
  -- Passes of the code are passes of the machine, and the code has taken its first steps before.
  have hpasses : ∀ count, Turn.Rel R
      (Turn.passes (Scene.pass M.call closure.globals t params) count s)
      (Turn.passes pass count start) := fun count =>
    Turn.Rel.passes hpass count (hstart s hshows)
  have htakes := fun count => hdispatches.takes_passes count s
  rw [hclosure] at htakes
  have hall : ∀ count m, Turn.passes pass count start = .again m → ∃ steps, count ≤ steps ∧
      Machine.Reaches (step M.call closure chunk) steps (startFrame chunk args) h
        ⟨(locals m).toArray, [], M.code.place top⟩ (heap m) := by
    intro count m hm
    have hrel := hpasses count
    have htake := htakes count
    rw [hm] at hrel
    generalize Turn.passes (Scene.pass M.call closure.globals t params) count s = turn at hrel htake
    cases hrel with
    | @again s' _ hrelated =>
      obtain ⟨k, hcount, hruns⟩ := htake
      rw [Setting.Runs, hstep] at hruns
      have hframe : M.frame top s'.locals [] = ⟨(locals m).toArray, [], M.code.place top⟩ :=
        congrArg (fun values : List Value =>
          (⟨values.toArray, [], M.code.place top⟩ : Machine.Frame)) (hnames ▸ hlocals s' m hrelated)
      rw [hframe, hheap s' m hrelated] at hruns
      exact ⟨n + k, by omega, hreaches.trans hruns⟩
  refine ⟨hall, fun count result h' hm => ?_, fun hendless limit => ?_⟩
  · have hrel := hpasses count
    have htake := htakes count
    rw [hm] at hrel
    generalize Turn.passes (Scene.pass M.call closure.globals t params) count s = turn at hrel htake
    cases hrel with
    | «over» =>
      obtain ⟨k, hfinishes⟩ := htake
      rw [Setting.Finishes, hstep] at hfinishes
      refine ⟨n + k + 1, fun limit hlimit => ?_⟩
      rw [hactivates]
      exact loop_of_finishes (hreaches.finishes hfinishes) (by omega)
  · obtain ⟨m, hm⟩ := hendless limit
    obtain ⟨steps, hle, hsteps⟩ := hall limit m hm
    obtain ⟨h', hloop⟩ := loop_of_reaches_lt hsteps hle
    rw [hactivates, hloop]

end Functions

/-- A generated function walks the tree from its root, pass for pass: after so many passes of the
walk it stands at the top of its loop, with an empty stack and in its locals the parameters, the
action and the argument of the walk, or it has ended as the walk has. If the walk does not end, the
function does not return. -/
theorem generate_walks {marks : Marks} {t : ActionTable} {root : Value} {name : Text}
    {params : List Text} {globals : Bindings} {h₀ h₁ : Heap} {f : Value}
    (ht : ∀ n ∈ t.actions.toList, n.Walkable params) (hnodup : params.Nodup)
    (hgenerate : t.generate marks none root name params globals h₀ = (.ok f, h₁)) :
    ∃ r closure top, f = .function r ∧ h₁.function? r = some (.compiled closure) ∧
      (∃ action argument, h₁.items? root = some [action, argument]) ∧
      ∀ (call : Caller) (h : Heap) (args : List Value) (action argument : Value),
        args.length = params.length → h.chunk closure.chunk = h₁.chunk closure.chunk →
        h.items? root = some [action, argument] →
        (∀ count, match Walk.passes call globals t params count ⟨action, argument, args, h⟩ with
          | .again w => ∃ steps, count ≤ steps ∧
              Machine.Reaches (step call closure (h.chunk closure.chunk)) steps
                (startFrame (h.chunk closure.chunk) args) h
                ⟨(w.values ++ [w.action, w.argument]).toArray, [], top⟩ w.heap
          | .over result h' => ∃ steps, ∀ limit, steps ≤ limit →
              activate call limit closure args [] h = (result, h')) ∧
        ((∀ count, ∃ w, Walk.passes call globals t params count ⟨action, argument, args, h⟩ =
            .again w) →
          ∀ limit, (activate call limit closure args [] h).1 = .error .exhausted) := by
  obtain ⟨hnames, r, closure, top, rfl, hfunction, rfl, hpair, hbegins⟩ :=
    begins_of_generate hnodup
      (fun n hn => ⟨(ht n hn).built, (ht n hn).valued, (ht n hn).assigned⟩) hgenerate
  refine ⟨r, closure, top, rfl, hfunction, hpair,
    fun call h args action argument hargs hheld hroot => ?_⟩
  obtain ⟨hagain, hover, hendless⟩ :=
    (hbegins call h args action argument hargs hheld hroot).follows
      (fun s w hs => hs.rel_pass ht hnames) (fun s w hs => hs.map_locals) (fun s w hs => hs.heap)
      fun s hs => hs
  refine ⟨fun count => ?_, hendless⟩
  split
  next hw => exact hagain count _ hw
  next hw => exact hover count _ _ hw

/-- A pair to start from, whose argument is a pair that ends the walk with a call. -/
def smallTree : Heap :=
  { cells := #[.function (.builtin "echo" .echo), .tuple [.int 0, .function 0],
      .tuple [.int 1, .tuple 1]] }

namespace Node

/-- Counts up, and stays where it is until three is reached. -/
def climb : Node :=
  .sequence [.store "x" (.binary .add (.var "x") (.const (.int 1) "int:1")),
    .cond (.compare (.var "x") [(.lt, .const (.int 3) "int:3")])
      (.next (.collection .tuple [.var actionName, .var argumentName])) (.var argumentName)]

theorem walkable_climb : climb.Walkable ["x"] where
  built := by decide
  valued := by decide
  regular := by decide
  assigned := by decide

/-- Goes on with its argument, by a choice that has no value to go by. -/
def stray : Node :=
  .cond (.sequence [.const (.int 1) "int:1", .store "x" (.const (.int 1) "int:1")])
    (.sequence [.const (.int 2) "int:2", .store "x" (.const (.int 2) "int:2")])
    (.var argumentName)

end Node

theorem generate_walks_climb :
    ∃ h₁ closure, ({ actions := #[Node.climb] } : ActionTable).generate (fun _ _ => false) none
        (.tuple 2) "f" ["x"] {} smallTree = (.ok (.function 3), h₁) ∧
      h₁.function? 3 = some (.compiled closure) ∧
      ∃ steps, ∀ limit, steps ≤ limit →
        (activate (callWithin 1) limit closure [.int 0] [] h₁).1 = .ok (.int 3) := by
  generalize hresult : (({ actions := #[Node.climb] } : ActionTable).generate
    (fun _ _ => false) none
    (.tuple 2) "f" ["x"] {} smallTree : Except Failure Value × Heap) = outcome
  have hok : outcome.1 = .ok (.function 3) := by
    rw [← hresult]
    decide +kernel
  have hroot : outcome.2.items? (.tuple 2) = some [.int 1, .tuple 1] := by
    rw [← hresult]
    decide +kernel
  have hover : (Walk.passes (callWithin 1) {} { actions := #[Node.climb] } ["x"] 4
      ⟨.int 1, .tuple 1, [.int 0], outcome.2⟩).result? = some (.ok (.int 3)) := by
    rw [← hresult]
    decide +kernel
  obtain ⟨_, h₁⟩ := outcome
  cases hok
  obtain ⟨r, closure, top, hr, hfunction, -, hwalks⟩ :=
    generate_walks (by simp [Node.walkable_climb]) (by decide) hresult
  cases hr
  refine ⟨h₁, closure, rfl, hfunction, ?_⟩
  have hpasses := (hwalks (callWithin 1) h₁ [.int 0] (.int 1) (.tuple 1) rfl rfl hroot).1 4
  split at hpasses
  next w hw =>
    rw [hw] at hover
    cases hover
  next result h' hw =>
    rw [hw] at hover
    cases hover
    obtain ⟨steps, hsteps⟩ := hpasses
    exact ⟨steps, fun limit hlimit => by rw [hsteps limit hlimit]⟩

/-- It is not enough that assignments are steps: an action that chooses by steps without a value is
accepted, and the generated function runs out of operands where the walk goes on. -/
theorem generate_valueless_underflows :
    Node.stray.Everywhere Node.StoresAreSteps ∧ Node.stray.Everywhere Node.Built ∧
      Node.stray.Everywhere Node.Regular ∧ Node.stray.assigned ⊆ ["x"] ∧
      (ActionTable.check Node.stray).1 = .ok () ∧
      ∃ h₁, ({ actions := #[Node.stray] } : ActionTable).generate (fun _ _ => false) none (.tuple 2)
          "f" ["x"] {} smallTree = (.ok (.function 3), h₁) ∧
        (callWithin 65536 (.function 3) [.int 7] [] h₁).1 = .error (.fault .stackUnderflow) ∧
        (Walk.passes (callWithin 65535) {} { actions := #[Node.stray] } ["x"] 2
          ⟨.int 1, .tuple 1, [.int 7], h₁⟩).result? = some (.ok (.int 1)) := by
  generalize hresult : (({ actions := #[Node.stray] } : ActionTable).generate
    (fun _ _ => false) none
    (.tuple 2) "f" ["x"] {} smallTree : Except Failure Value × Heap) = outcome
  have hok : outcome.1 = .ok (.function 3) := by
    rw [← hresult]
    decide +kernel
  have hcall : (callWithin 65536 (.function 3) [.int 7] [] outcome.2).1 =
      .error (.fault .stackUnderflow) := by
    rw [← hresult]
    decide +kernel
  have hover : (Walk.passes (callWithin 65535) {} { actions := #[Node.stray] } ["x"] 2
      ⟨.int 1, .tuple 1, [.int 7], outcome.2⟩).result? = some (.ok (.int 1)) := by
    rw [← hresult]
    decide +kernel
  obtain ⟨_, h₁⟩ := outcome
  cases hok
  exact ⟨by decide, by decide, by decide, by decide, by decide +kernel, h₁, rfl, hcall, hover⟩

end ExprBackend
