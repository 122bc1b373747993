import ExprBackend.Proofs.Evaluation
import Mathlib

/-! # Invoking compiled functions

A compiled function starts with its arguments in the first slots and an empty
stack. Its code runs through to the return, in no more steps than it has bytes,
and returns what the expression performs. That is the evaluation of the expression
where every name that is assigned is a parameter, and more generally where no name
is read that only some of the ways to it have assigned.
-/

namespace ExprBackend

open List

variable {M : Setting} {args : List Value} {c : Code} {extra params : List Text} {n : Node}
  {name : Text} {result : Except Failure Value} {s' : Scene}

/-- A buffer that is new has a slot for each parameter. -/
theorem Code.create_eq (name : Text) (hnodup : params.Nodup) :
    create name params = { name, paramCount := params.length, locals := params } := by
  have hfold : ∀ (seen rest : List Text) (count : Nat), (seen ++ rest).Nodup →
      declareAll { name, paramCount := count, locals := seen } rest =
        { name, paramCount := count, locals := seen ++ rest } := by
    intro seen rest
    induction rest generalizing seen with
    | nil => simp [declareAll]
    | cons param rest ih =>
      intro count hnodup
      have hnew : param ∉ seen := fun hmem =>
        (nodup_append.mp hnodup).2.2 param hmem param (by simp) rfl
      have hslot : slot? { name, paramCount := count, locals := seen } param = none :=
        slot?_eq_none_iff.mpr hnew
      rw [declareAll, foldl_cons, ← declareAll, declare, hslot]
      simpa using ih (seen ++ [param]) count (by simpa using hnodup)
  have hall := hfold [] params params.length (by simpa using hnodup)
  unfold create
  split
  · exact hall
  · split
    · rfl
    · exact hall

namespace Setting

/-- The values of the parameters at the start; all other locals are `none`. -/
def argument (params : List Text) (args : List Value) (name : Text) : Value :=
  ((params.zip args).lookup name).getD .none

theorem map_argument (hnodup : params.Nodup) (hlength : args.length = params.length) :
    params.map (argument params args) = args := by
  induction params generalizing args with
  | nil => exact (length_eq_zero_iff.mp hlength).symm
  | cons param rest ih =>
    match args, hlength with
    | v :: args, hlength =>
      rw [nodup_cons] at hnodup
      rw [length_cons, length_cons, Nat.add_right_cancel_iff] at hlength
      have hrest : ∀ name ∈ rest, argument (param :: rest) (v :: args) name =
          argument rest args name := by
        intro name hname
        have hne : name ≠ param := fun heq => hnodup.1 (heq ▸ hname)
        rw [argument, zip_cons_cons, Bindings.lookup_cons, if_neg hne, argument]
      rw [map_cons, map_congr_left hrest, ih hnodup.2 hlength, argument,
        zip_cons_cons, Bindings.lookup_cons, if_pos rfl, Option.getD_some]

theorem argument_eq_none (args : List Value) (hname : name ∉ params) :
    argument params args name = .none := by
  have hlookup : (params.zip args).lookup name = none := by
    rw [lookup_eq_none_iff]
    rintro ⟨key, v⟩ hmem
    have hkey : key ∈ params := (of_mem_zip hmem).1
    simpa using fun heq : name = key => hname (heq ▸ hkey)
  rw [argument, hlookup, Option.getD_none]

/-- An activation starts in front of the code. -/
theorem startFrame_eq (hlocals : M.code.locals = params ++ extra)
    (hlength : args.length = params.length) : Machine.startFrame M.chunk args =
      ⟨(M.code.locals.map (argument params args)).toArray, [], 0⟩ := by
  have hnodup := M.nodup
  rw [hlocals, nodup_append] at hnodup
  have hextra : extra.map (argument params args) = List.replicate extra.length .none := by
    rw [eq_replicate_iff]
    refine ⟨by simp, fun v hv => ?_⟩
    obtain ⟨name, hname, rfl⟩ := mem_map.mp hv
    exact argument_eq_none args fun hmem => hnodup.2.2 name hmem name hname rfl
  rw [Machine.startFrame, M.assembled.localNames, hlocals, map_append,
    map_argument hnodup.1 hlength, hextra]
  simp [hlength]

/-- Code of an expression with a return behind it returns the value of the expression. -/
theorem finishes_of_realizes {mode : Mode} {k : Nat} {st : List Value} {s : Scene}
    {p : Perform Value} (h : M.Realizes mode k c st s (Action.pushes p st s))
    (hp : p s = (result.mapError .failure, s'))
    (hret : M.code.body[c.body.size]? = some ⟨.ret, 0⟩) :
    ∃ n, n + k ≤ c.body.size ∧ M.Finishes n k st s result s'.heap := by
  cases result with
  | ok v =>
    rw [Action.pushes, bind_of_ok hp] at h
    cases h with
    | value hlive hlength hle hruns =>
      have hstep : M.step (M.frame c.body.size s'.locals (v :: st)) s'.heap =
          (.ok (.returned v), s'.heap) := by
        rw [step, frame, M.assembled.step_body hret rfl]
        rfl
      exact ⟨_, hle, _, _, hruns, hstep⟩
  | error e =>
    rw [Action.pushes, bind_of_error hp] at h
    cases h with
    | failure hlt hstops => exact ⟨_, Nat.le_of_lt hlt, hstops.finishes⟩

/-- Code that is in no loop has nowhere to go on. -/
theorem Realizes.stays {mode : Mode} {k : Nat} {st : List Value} {s : Scene} {p : Perform Value}
    (h : M.Realizes mode k c st s (Action.pushes p st s)) (hhead : mode.head = none) :
    ∃ (result : Except Failure Value) (s' : Scene), p s = (result.mapError .failure, s') := by
  rcases hp : p s with ⟨(f | pair) | v, s'⟩
  · exact ⟨.error f, s', rfl⟩
  · rw [Action.pushes, bind_of_error hp] at h
    cases h with
    | transfer hat => cases hhead.symm.trans hat.choose_spec.choose_spec.1
    | refusal hloop => simp [hhead] at hloop
  · exact ⟨.ok v, s', rfl⟩

end Setting

/-! ## Code without interceptors -/

/-- Expressions are emitted without interceptors, in a loop with the given top or in none. -/
def Mode.direct (head : Option Label) : Mode where
  Visible _ := True
  Interception _ extras := extras.interceptor = none ∧ extras.prologue = #[]
  head := head
  Marked _ := True
  settled _ h := h
  declares _ _ _ h := h

theorem Emit.passes_direct {head : Option Label} : Passes M (.direct head) Gate.opened :=
  passes_opened (fun _ _ h => h.1) fun _ _ _ h => h

variable {c' code : Code} {names locals : List Text} {marks : Marks} {p : Program}
  {closure : Closure} {h : Heap} {limit : Nat}

/-- The parameters of a program are the first locals. -/
theorem Code.params_eq (hlocals : c.locals = params ++ extra)
    (hcount : c.paramCount = params.length) (h : c.params? = some names) : names = params := by
  rw [Code.params?] at h
  split at h
  next =>
    rw [← Option.some.inj h, hlocals, hcount]
    simp
  next => cases h

theorem program_of_yields (h : Emit.program.Yields marks c p c') :
    Assembled c p.chunk ∧ c.params? = some p.params := by
  rw [Emit.program] at h
  obtain ⟨chunk, c₁, hassemble, h⟩ := Emit.yields_bind.mp h
  obtain ⟨hassembled, -, hlocals, hcount⟩ := assembled_of_yields hassemble
  rw [Emit.yields_get_bind] at h
  obtain ⟨params, c₂, hparams, h⟩ := Emit.yields_bind.mp h
  rw [Emit.params, Emit.yields_get_bind] at hparams
  cases hnames : c₁.params? with
  | none =>
    rw [hnames] at hparams
    simp [Emit.yields_stop] at hparams
  | some names =>
    rw [hnames] at hparams
    obtain ⟨rfl, rfl⟩ := Emit.yields_pure.mp hparams
    obtain ⟨rfl, -⟩ := Emit.yields_pure.mp h
    rw [Code.params?, hlocals, hcount] at hnames
    exact ⟨hassembled, hnames⟩

/-- A program made of an expression is the code of the expression and a return. -/
theorem toProgram_of_yields (h : n.toProgram.Yields marks c p c') :
    ∃ c₁, (Emit.expression n n.emit).Yields marks c () c₁ ∧
      Assembled (c₁.appended .ret 0 (-1)).ended p.chunk ∧
      (c.paramCount = c.locals.length → p.params = c.locals) := by
  obtain ⟨_, c₁, hemit, h⟩ := Emit.yields_bind.mp h
  obtain ⟨_, c₂, hret, hprogram⟩ := Emit.yields_bind.mp h
  obtain rfl := Emit.yields_ret.mp hret
  obtain ⟨hassembled, hparams⟩ := program_of_yields hprogram
  have hgrows : c.Grows c₁ := n.grown hemit
  obtain ⟨extra, hextra⟩ := hgrows.locals
  exact ⟨c₁, hemit, hassembled, fun hcount =>
    Code.params_eq hextra.symm (hgrows.paramCount.trans hcount) hparams⟩

/-- The setting in which nothing runs. What it is good for is that the order of buffers does not
depend on the setting. -/
def Setting.idle : Setting where
  call _ _ _ := throw .exhausted
  closure := ⟨[], [], 0, {}⟩
  code := { name := [], paramCount := 0 }
  chunk := {}
  assembled := ⟨by decide, rfl, rfl, rfl, rfl, rfl⟩
  nodup := nodup_nil
  locals_le := by simp

theorem ready_new (name : Text) (paramCount : Nat) (hnodup : locals.Nodup) :
    ({ name, paramCount, locals } : Code).Ready (.direct none) ⟨locals, []⟩ :=
  ⟨rfl, hnodup, fun _ _ => Iff.rfl, by simp, by simp, ⟨rfl, rfl⟩,
    (fun _ h => nomatch h), fun _ => Int.le_refl 0, by simp, by simp, Int.le_refl 0, by simp⟩

/-- As many arguments as there are parameters are the values of the parameters. -/
theorem bindArguments_eq (function : Text) (hlength : args.length = params.length) :
    Machine.bindArguments function params args [] = .ok args := by
  have hbound : ∀ (params : List Text) (args : List Value), args.length = params.length →
      Machine.boundValues function params (args.map some) = .ok args := by
    intro params
    induction params with
    | nil =>
      intro args hargs
      rw [length_eq_zero_iff.mp hargs]
      rfl
    | cons param rest ih =>
      intro args hargs
      match args, hargs with
      | v :: args, hargs =>
        rw [map_cons, Machine.boundValues, ih args (by simpa using hargs)]
        rfl
  have hslots : args.map some ++ List.replicate (params.length - args.length)
      (none : Option Value) = args.map some := by
    simp [hlength]
  rw [Machine.bindArguments, if_neg (by omega), hslots]
  exact hbound params args hlength

/-- An activation that sets aside as much stack as its code asks for runs its code. -/
theorem activate_eq (call : Caller) (limit : Nat) {values : List Value} {keywords : List Keyword}
    (hbind : Machine.bindArguments closure.name closure.params args keywords = .ok values)
    (hnonneg : 0 ≤ (h.chunk closure.chunk).maxStack)
    (hle : (h.chunk closure.chunk).maxStack ≤ Machine.largestStack) :
    Machine.activate call limit closure args keywords h =
      Machine.loop (Machine.step call closure (h.chunk closure.chunk)) limit
        (Machine.startFrame (h.chunk closure.chunk) values) h := by
  rw [Machine.activate, hbind]
  change (do
    if (h.chunk closure.chunk).maxStack < 0 ∨
      Machine.largestStack < (h.chunk closure.chunk).maxStack
    then Run.stop .badStackSize
    Machine.loop (Machine.step call closure (h.chunk closure.chunk)) limit
      (Machine.startFrame (h.chunk closure.chunk) values) : Run Value) h = _
  rw [if_neg (by omega)]

/-- Locals that are the parameters and names assigned to parameters are the parameters. -/
theorem locals_eq (hparams : params <+: locals) (hnodup : locals.Nodup)
    (hlocals : locals ⊆ params) : locals = params := by
  obtain ⟨extra, rfl⟩ := hparams
  rw [nodup_append] at hnodup
  have hextra : extra = [] := eq_nil_iff_forall_not_mem.mpr fun name hname =>
    hnodup.2.2 name (hlocals (mem_append_right _ hname)) name hname rfl
  rw [hextra, append_nil]

/-- Names that are all different are no more than a list has that holds them. -/
theorem length_le_of_subset {others : List Text} (hnodup : names.Nodup) (h : names ⊆ others) :
    names.length ≤ others.dedup.length :=
  (hnodup.subperm (Subset.trans h (subset_dedup others))).length_le

/-- A compiled function does what the code of its expression performs. -/
theorem activate_of_perform (hcompile : compileProgram marks none name params n = (.ok p, code))
    (hproper : n.Everywhere (Node.Proper (.direct none))) (heffect : n.effect = 1)
    (hnodup : params.Nodup) (hroom : (params ++ n.assigned).dedup.length ≤ 65536) (call : Caller)
    (hclosure : closure.params = p.params) (hchunk : h.chunk closure.chunk = p.chunk)
    (hargs : args.length = params.length) (hlimit : 65535 ≤ limit) :
    ∃ (result : Except Failure Value) (s' : Scene), n.perform call closure.globals Gate.opened
      ⟨params, []⟩ ⟨h, Setting.argument params args⟩ = (result.mapError .failure, s') ∧
      Machine.activate call limit closure args [] h = (result, s'.heap) := by
  have hready := ready_new name params.length hnodup
  have hyields : n.toProgram.Yields marks { Code.create name params with interceptor := none } p
    code := hcompile
  rw [Code.create_eq name hnodup] at hyields
  obtain ⟨c₁, hemit, hassembled, hnames⟩ := toProgram_of_yields hyields
  have hfits : n.Fits (.direct none) ⟨params, []⟩ := ⟨hproper, fun hhead => by cases hhead⟩
  have hcode : c₁.Grows (c₁.appended .ret 0 (-1)).ended :=
    (c₁.grows_appended ..).trans (Code.grows_ended _)
  have hsize : c₁.body.size + 1 ≤ 65535 := by
    simpa using hassembled.body_size_le
  obtain ⟨hready₁, hflow, hlive₁⟩ := (n.compiles (M := .idle) Emit.passes_direct _ hfits).keeps.step
    hemit hready (fun _ => rfl) (fun _ => Int.le_refl 0) (by omega)
  obtain ⟨extra, hextra⟩ := (n.grown hemit).locals
  have hlocals : c₁.locals ⊆ params ++ n.assigned := fun other hother =>
    (hready₁.scope other trivial).mp hother
  let M : Setting :=
    { call, closure, code := (c₁.appended .ret 0 (-1)).ended, chunk := p.chunk,
      assembled := hassembled, nodup := hready₁.nodup,
      locals_le := Nat.le_trans (length_le_of_subset hready₁.nodup hlocals) hroom }
  have hrun := (n.compiles (M := M) Emit.passes_direct _ hfits).run hemit hready rfl
    (Int.le_refl 0) hcode trivial [] ⟨h, Setting.argument params args⟩ rfl
  rw [heffect] at hrun
  have hret : M.code.body[c₁.body.size]? = some ⟨.ret, 0⟩ := by
    simp [M]
  have hdepth : c₁.depth = 1 := by
    rw [hflow.depth rfl (hlive₁ rfl), heffect]
    rfl
  have hready₂ : (c₁.appended .ret 0 (-1)).Ready (.direct none) (Context.after ⟨params, []⟩ n) :=
    (hready₁.append .ret 0 (by omega) (by omega) (fun _ => by omega) (by simpa using hsize)).1
  have hstack : p.chunk.maxStack = (c₁.appended .ret 0 (-1)).maxDepth := hassembled.maxStack
  have hnonneg := hready₂.maxDepth_nonneg
  have hstack_le : (c₁.appended .ret 0 (-1)).maxDepth ≤ 65536 := by
    have := hready₂.maxDepth_le
    simp only [Code.appended_body, Array.size_push] at this
    omega
  have hstart : Machine.startFrame p.chunk args =
      M.frame 0 (Setting.argument params args) [] := by
    have hplace : M.code.place 0 = 0 := by
      rw [Code.place]
      change codeOffset _ (c₁.prologue.size + 0) = 0
      rw [show c₁.prologue = #[] from hready₁.interception.2]
      rfl
    have hfirst : M.code.locals = params ++ extra := hextra.symm
    rw [Setting.frame, hplace]
    exact M.startFrame_eq hfirst hargs
  rw [activate_eq call limit (bindArguments_eq closure.name (by rw [hargs, hclosure, hnames rfl]))
    (by rw [hchunk, hstack]; exact hnonneg)
    (by rw [hchunk, hstack]; exact Int.le_trans hstack_le (by decide)), hchunk, hstart]
  obtain ⟨result, s', hperform⟩ := hrun.stays rfl
  obtain ⟨steps, hle, hfinishes⟩ := Setting.finishes_of_realizes hrun hperform hret
  exact ⟨result, s', hperform, Machine.loop_of_finishes hfinishes (by omega)⟩

/-! ## Compiled functions and evaluation -/

/-- A function that has been compiled is in the heap, and so is its code. -/
theorem compile_of_ok {interceptor : Option Interceptor} {globals : Bindings} {h₀ h₁ : Heap}
    {f : Value} (h : compile marks interceptor name params n globals h₀ = (.ok f, h₁)) :
    ∃ p code r closure, compileProgram marks interceptor name params n = (.ok p, code) ∧
      f = .function r ∧ h₁.function? r = some (.compiled closure) ∧ closure.params = p.params ∧
      closure.globals = globals ∧ h₁.chunk closure.chunk = p.chunk := by
  rcases hprogram : compileProgram marks interceptor name params n with ⟨_ | p, code⟩
  · rw [compile, hprogram] at h
    cases h
  · rw [compile, hprogram] at h
    cases h
    refine ⟨p, code, h₀.cells.size, ⟨p.name, p.params, h₀.chunks.size, globals⟩, rfl, rfl, ?_, rfl,
      rfl, ?_⟩
    · simp [Heap.function?]
    · simp [Heap.chunk]

/-- The expressions that assign names of their own: a name is a local from its first assignment in
the text on, so no name is read behind an assignment that may have been passed by. -/
structure Node.Definite (params : List Text) (n : Node) : Prop where
  built : n.Everywhere Built
  valued : n.Everywhere Valued
  straight : n.Everywhere fun m => m.isNext = false
  settles : n.settles ⟨params, params⟩ = true
  effect : n.effect = 1

theorem Node.Definite.proper (h : n.Definite params) : n.Everywhere (Proper (.direct none)) :=
  fun m hm => ⟨h.built m hm, h.valued m hm, fun _ _ => trivial,
    fun hnext => by cases (h.straight m hm).symm.trans hnext⟩

/-- A compiled function ends as its expression does, if slices are made and arguments gathered where
that matters. -/
theorem activate_attempt (manner : Manner) (hn : n.Definite params)
    (hcompile : compileProgram marks none name params n = (.ok p, code)) (hnodup : params.Nodup)
    (hroom : (params ++ n.assigned).dedup.length ≤ 65536) (call : Caller)
    (hclosure : closure.params = p.params) (hchunk : h.chunk closure.chunk = p.chunk)
    (hargs : args.length = params.length) (hlimit : 65535 ≤ limit)
    (hmanner : manner = .plain → n.Everywhere Node.Regular) :
    ∃ (result : Except Failure Value) (e : EvalState),
      n.attempt manner call ⟨h, closure.globals.setAll (params.zip args)⟩ =
        (result.mapError .failure, e) ∧
      Machine.activate call limit closure args [] h = (result, e.heap) := by
  -- Before the first step the parameters are all that has been touched, and each has its argument.
  have hbounds : Sight.Bounds ⟨params, params⟩ ⟨params, []⟩ :=
    ⟨Subset.refl _, Subset.refl _⟩
  have hagrees : Scene.Agrees closure.globals ⟨params, params⟩ ⟨h, Setting.argument params args⟩
      ⟨h, closure.globals.setAll (params.zip args)⟩ := by
    refine ⟨rfl, fun name hname => ?_, fun name hname => ?_⟩
    · exact (Bindings.get?_setAll _ hnodup args hargs name).trans (if_pos hname)
    · exact (Bindings.get?_setAll _ hnodup args hargs name).trans (if_neg hname)
  obtain ⟨result, s', hperform, hactivate⟩ := activate_of_perform hcompile hn.proper hn.effect
    hnodup hroom call hclosure hchunk hargs hlimit
  have htracked : n.Tracked manner call closure.globals := n.tracked hmanner hn.built
  have halike := htracked _ _ hbounds hn.settles _ _ hagrees
  rw [hperform] at halike
  rw [hactivate]
  generalize n.attempt manner call _ = outcome at halike
  cases result with
  | error f =>
    cases halike with
    | failure hheap => exact ⟨.error f, _, rfl, by rw [hheap]⟩
  | ok v =>
    cases halike with
    | value hagrees' => exact ⟨.ok v, _, rfl, by rw [hagrees'.heap]⟩

/-- The expressions whose code does what their evaluation does: all operands have a value, and every
name that is assigned is a parameter. -/
structure Node.Compilable (params : List Text) (n : Node) : Prop where
  built : n.Everywhere Built
  valued : n.Everywhere Valued
  plain : n.Everywhere Plain
  assigned : n.assigned ⊆ params
  effect : n.effect = 1

/-- Where only parameters are assigned, every name that is read is settled. -/
theorem Node.Compilable.definite (h : n.Compilable params) : n.Definite params :=
  ⟨h.built, h.valued, fun m hm => (h.plain m hm).2,
    n.settles_of_subset _ (append_subset.mpr ⟨Subset.refl _, h.assigned⟩), h.effect⟩

theorem Node.Compilable.room (h : n.Compilable params) (hparams : params.length ≤ 65536) :
    (params ++ n.assigned).dedup.length ≤ 65536 := by
  refine Nat.le_trans ((nodup_dedup _).subperm ?_).length_le hparams
  exact Subset.trans (dedup_subset _) (append_subset.mpr ⟨Subset.refl _, h.assigned⟩)

/-- An expression that compiles gives a function that does what the evaluation of the expression
does, with the parameters bound to the arguments over the globals: it makes the same calls, and it
ends with the same value or failure and the same heap. -/
theorem compile_evaluates {marks : Marks} {name : Text} {params : List Text} {n : Node}
    {globals : Bindings} {h₀ h₁ : Heap} {f : Value} (hn : n.Compilable params)
    (hnodup : params.Nodup) (hparams : params.length ≤ 65536)
    (hcompile : compile marks none name params n globals h₀ = (.ok f, h₁)) :
    ∃ r closure, f = .function r ∧ h₁.function? r = some (.compiled closure) ∧
      ∀ (call : Caller) (limit : Nat) (h : Heap) (args : List Value),
        args.length = params.length → 65535 ≤ limit →
        h.chunk closure.chunk = h₁.chunk closure.chunk →
        Machine.activate call limit closure args [] h =
          match n.eval call ⟨h, globals.setAll (params.zip args)⟩ with
          | (result, e) => (result, e.heap) := by
  obtain ⟨p, code, r, closure, hprogram, rfl, hfunction, hnames, rfl, hchunk⟩ :=
    compile_of_ok hcompile
  refine ⟨r, closure, rfl, hfunction, fun call limit h args hargs hlimit hheld => ?_⟩
  obtain ⟨result, e, hattempt, hactivate⟩ := activate_attempt .plain hn.definite hprogram hnodup
    (hn.room hparams) call hnames (hheld.trans hchunk) hargs hlimit fun _ m hm => (hn.plain m hm).1
  rw [n.evaluates hn.definite.straight] at hattempt
  rw [hactivate, Attempt.eq_of_ofEval hattempt]

/-- The steps `x = x + 1` and `x`. -/
def Node.increment : Node :=
  .sequence [.store "x" (.binary .add (.var "x") (.const (.int 1) "int:1")), .var "x"]

theorem Node.compilable_increment : increment.Compilable ["x"] where
  built := by decide
  valued := by decide
  plain := by decide
  assigned := by decide
  effect := rfl

theorem compile_evaluates_increment :
    ∃ f h₁ r closure,
      compile (fun _ _ => false) none "f" ["x"] Node.increment {} {} = (.ok f, h₁) ∧
      f = .function r ∧ h₁.function? r = some (.compiled closure) ∧
      ∀ (call : Caller) (limit : Nat) (h : Heap) (args : List Value),
        args.length = 1 → 65535 ≤ limit → h.chunk closure.chunk = h₁.chunk closure.chunk →
        Machine.activate call limit closure args [] h =
          match Node.increment.eval call ⟨h, ({} : Bindings).setAll ([↑"x"].zip args)⟩ with
          | (result, e) => (result, e.heap) := by
  have hcompile : compile (fun _ _ => false) none "f" ["x"] Node.increment {} {} =
      (.ok (.function 0), (compile (fun _ _ => false) none "f" ["x"] Node.increment {} {}).2) := by
    cbv
  obtain ⟨r, closure, hf, hfunction, hruns⟩ :=
    compile_evaluates Node.compilable_increment (by decide) (by decide) hcompile
  exact ⟨_, _, r, closure, hcompile, hf, hfunction, hruns⟩

namespace Node

/-- Whether an expression is an assignment. -/
def isStore : Node → Bool
  | .store _ _ => true
  | _ => false

/-- Assignments stand nowhere but among the steps of a sequence. -/
def StoresAreSteps (n : Node) : Prop :=
  n.isSequence = false → ∀ m ∈ n.children, m.isStore = false

instance : DecidablePred StoresAreSteps := fun n =>
  inferInstanceAs (Decidable (n.isSequence = false → ∀ m ∈ n.children, m.isStore = false))

/-- A choice whose test and first alternative are steps that end with an assignment. -/
def valueless : Node :=
  .cond (.sequence [.const (.int 1) "int:1", .store "x" (.const (.int 1) "int:1")])
    (.sequence [.const (.int 2) "int:2", .store "x" (.const (.int 2) "int:2")])
    (.const (.int 3) "int:3")

end Node

/-- It is not enough that assignments are steps: of steps that end with one there is no value to
test, and the compiled function runs out of operands where the evaluation takes `none`. -/
theorem compile_valueless_underflows :
    Node.valueless.Everywhere Node.StoresAreSteps ∧ Node.valueless.Everywhere Node.Built ∧
      Node.valueless.Everywhere Node.Plain ∧ Node.valueless.assigned ⊆ ["x"] ∧
      Node.valueless.effect = 1 ∧
      ∃ h₁, compile (fun _ _ => false) none "f" ["x"] Node.valueless {} {} =
          (.ok (.function 0), h₁) ∧
        (callWithin 65536 (.function 0) [.int 7] [] h₁).1 = .error (.fault .stackUnderflow) ∧
        (Node.valueless.eval (callWithin 65535) ⟨h₁, ({} : Bindings).set "x" (.int 7)⟩).1 =
          .ok (.int 3) := by
  refine ⟨by decide, by decide, by decide, by decide, rfl,
    (compile (fun _ _ => false) none "f" ["x"] Node.valueless {} {}).2, by cbv, ?_, ?_⟩
  · decide +kernel
  · decide +kernel

/-! ## Names that are not parameters -/

/-- An expression that reads a name either before all assignments to it in the text, or only where
one of them has surely been made, gives a function that does what the evaluation of the expression
does, whether the names it assigns are parameters, globals or neither. To take a part of a sequence
it makes a slice value, and it gathers arguments that are spread. -/
theorem compile_evaluates_definite {marks : Marks} {name : Text} {params : List Text} {n : Node}
    {globals : Bindings} {h₀ h₁ : Heap} {f : Value} (hn : n.Definite params)
    (hnodup : params.Nodup) (hroom : (params ++ n.assigned).dedup.length ≤ 65536)
    (hcompile : compile marks none name params n globals h₀ = (.ok f, h₁)) :
    ∃ r closure, f = .function r ∧ h₁.function? r = some (.compiled closure) ∧
      ∀ (call : Caller) (limit : Nat) (h : Heap) (args : List Value),
        args.length = params.length → 65535 ≤ limit →
        h.chunk closure.chunk = h₁.chunk closure.chunk →
        (∃ (result : Except Failure Value) (e : EvalState),
          n.attempt .gathering call ⟨h, globals.setAll (params.zip args)⟩ =
            (result.mapError .failure, e) ∧
          Machine.activate call limit closure args [] h = (result, e.heap)) ∧
        (n.Everywhere Node.Regular → Machine.activate call limit closure args [] h =
          match n.eval call ⟨h, globals.setAll (params.zip args)⟩ with
          | (result, e) => (result, e.heap)) := by
  obtain ⟨p, code, r, closure, hprogram, rfl, hfunction, hnames, rfl, hchunk⟩ :=
    compile_of_ok hcompile
  refine ⟨r, closure, rfl, hfunction, fun call limit h args hargs hlimit hheld => ?_⟩
  have hends := fun manner => activate_attempt manner hn hprogram hnodup hroom call hnames
    (hheld.trans hchunk) hargs hlimit
  refine ⟨hends .gathering (by rintro ⟨⟩), fun hregular => ?_⟩
  obtain ⟨result, e, hattempt, hactivate⟩ := hends .plain fun _ => hregular
  rw [n.evaluates hn.straight] at hattempt
  rw [hactivate, Attempt.eq_of_ofEval hattempt]

-- The expression `u = t`, `u[:n]`, which takes a slice, is one of those.
example : Node.Definite ["t", "n"]
    (.sequence [.store "u" (.var "t"), .slice (.var "u") none (some (.var "n")) none]) :=
  ⟨by decide, by decide, by decide, by decide, rfl⟩

/-- The steps `g = g + t` and `g`, of which the first reads what the second shadows. -/
def Node.shadowing : Node :=
  .sequence [.store "g" (.binary .add (.var "g") (.var "t")), .var "g"]

theorem Node.definite_shadowing : shadowing.Definite ["t"] where
  built := by decide
  valued := by decide
  straight := by decide
  settles := by decide
  effect := rfl

theorem compile_evaluates_shadowing :
    ∃ f h₁ r closure,
      compile (fun _ _ => false) none "f" ["t"] Node.shadowing
        (({} : Bindings).set "g" (.int 7)) {} = (.ok f, h₁) ∧
      f = .function r ∧ h₁.function? r = some (.compiled closure) ∧
      ∀ (call : Caller) (limit : Nat) (h : Heap) (args : List Value),
        args.length = 1 → 65535 ≤ limit → h.chunk closure.chunk = h₁.chunk closure.chunk →
        Machine.activate call limit closure args [] h =
          match Node.shadowing.eval call
            ⟨h, (({} : Bindings).set "g" (.int 7)).setAll ([↑"t"].zip args)⟩ with
          | (result, e) => (result, e.heap) := by
  have hcompile : compile (fun _ _ => false) none "f" ["t"] Node.shadowing
      (({} : Bindings).set "g" (.int 7)) {} = (.ok (.function 0),
        (compile (fun _ _ => false) none "f"
        ["t"] Node.shadowing (({} : Bindings).set "g" (.int 7)) {}).2) := by
    cbv
  obtain ⟨r, closure, hf, hfunction, hruns⟩ :=
    compile_evaluates_definite Node.definite_shadowing (by decide) (by decide) hcompile
  exact ⟨_, _, r, closure, hcompile, hf, hfunction, fun call limit h args hargs hlimit hheld =>
    (hruns call limit h args hargs hlimit hheld).2 (by decide)⟩

/-- A choice of which one alternative assigns `g`, and then a read of `g`. -/
def Node.halfAssigned : Node :=
  .sequence [.cond (.var "t")
    (.sequence [.store "g" (.const (.int 1) "int:1"), .const (.int 5) "int:5"])
    (.const (.int 6) "int:6"), .var "g"]

/-- Where an assignment is passed by, the compiled function reads an unset local although there is a
global of the name, and the evaluation reads the global. -/
theorem compile_halfAssigned_unset :
    Node.halfAssigned.Everywhere Node.StoresAreSteps ∧ Node.halfAssigned.Everywhere Node.Built ∧
      Node.halfAssigned.Everywhere Node.Valued ∧ Node.halfAssigned.Everywhere Node.Plain ∧
      Node.halfAssigned.effect = 1 ∧
      ∃ h₁, compile (fun _ _ => false) none "f" ["t"] Node.halfAssigned
          (({} : Bindings).set "g" (.int 7)) {} = (.ok (.function 0), h₁) ∧
        (callWithin 65536 (.function 0) [.bool false] [] h₁).1 = .ok .none ∧
        (Node.halfAssigned.eval (callWithin 65535)
          ⟨h₁, (({} : Bindings).set "g" (.int 7)).set "t" (.bool false)⟩).1 = .ok (.int 7) := by
  refine ⟨by decide, by decide, by decide, by decide, rfl,
    (compile (fun _ _ => false) none "f" ["t"] Node.halfAssigned
      (({} : Bindings).set "g" (.int 7)) {}).2, by cbv, ?_, ?_⟩
  · decide +kernel
  · decide +kernel

end ExprBackend
