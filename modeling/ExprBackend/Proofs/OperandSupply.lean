import ExprBackend.Proofs.Interpretation
import ExprBackend.Proofs.LoopCourse

/-! # Code that is supplied with operands

Code whose places are known runs without ever reaching below its own operands.
For a compiled expression that is so if the expression is a value and each operand
that is counted on without a check is one too. For a generated function only the
latter is needed: an action that goes back to the top of the loop does so with an
empty stack, or generation fails.
-/

namespace ExprBackend

open List

/-- In every activation each instruction finds its operands on the activation's own stack, and does
nothing to what could be below it. -/
def Chunk.Supplied (chunk : Chunk) : Prop :=
  ∀ (call : Caller) (closure : Closure) (args : List Value) (n : Nat) (frame : Machine.Frame)
    (h h' : Heap),
    Machine.Reaches (Machine.step call closure chunk) n (Machine.startFrame chunk args) h frame h' →
    ∃ op operand next, Machine.step call closure chunk frame =
        Machine.execute call closure chunk op operand { frame with offset := next } ∧
      op.reads operand ≤ frame.stack.length ∧
      ∀ below, Machine.Lifts below (Machine.step call closure chunk frame)
        (Machine.step call closure chunk (frame.above below))

variable {c : Code} {chunk : Chunk} {marks : Marks} {cache : Option Nat} {name : Text}
  {params : List Text} {n : Node} {p : Program} {h : Heap} {t : ActionTable} {root : Value}

/-- Nothing lacks operands where all places are known and the end cannot be reached. -/
theorem Code.Kept.supplied (hkept : c.Kept) (hassembled : Assembled c chunk)
    (houtside : c.inPrologue = false) (hend : c.reachable = false) : chunk.Supplied := by
  obtain ⟨mine, before, hsound⟩ := hkept
  have hannotated := hsound.annotated houtside
  intro call closure args n frame h h' hreaches
  obtain ⟨k, here, hhere, hlive, hoffset, hstack⟩ :=
    hannotated.reaches hassembled (hannotated.stands_startFrame args) hreaches
  obtain ⟨bound, hsegment⟩ := hannotated.segment
  have hlength := hsegment.length
  have hinside : ∃ i, c.instrs[k]? = some i := by
    by_contra hnone
    -- Behind the last instruction is the end, which cannot be reached.
    have hk : c.instrs.length ≤ k := by
      rw [← getElem?_eq_none_iff]
      exact Option.eq_none_iff_forall_ne_some.mpr fun i hi => hnone ⟨i, hi⟩
    have hlt := (List.getElem?_eq_some_iff.mp hhere).1
    have hlast : k = (before ++ mine).length := by
      simp only [List.length_append, List.length_singleton] at hlength hlt ⊢
      omega
    rw [← append_assoc, hlast, getElem?_append_right (Nat.le_refl _), Nat.sub_self] at hhere
    cases hhere
    rw [show c.standing.reachable = c.reachable from rfl, hend] at hlive
    cases hlive
  obtain ⟨i, hi⟩ := hinside
  obtain ⟨locals, stack, offset⟩ := frame
  obtain rfl : offset = codeOffset c.instrs k := hoffset
  obtain ⟨operand, hresolved, hstep⟩ := hassembled.step_eq hi
  obtain ⟨hreads, hlifts, -⟩ := hannotated.step hassembled call closure hi hhere hlive hstack
  refine ⟨i.op, decoded i.op.width operand, codeOffset c.instrs (k + 1), hstep .., ?_, hlifts⟩
  cases hjump : i.op.isJump with
  | true => exact Opcode.reads_of_isJump hjump _ _ ▸ hreads
  | false =>
    rw [Instr.resolved, hjump] at hresolved
    cases hresolved
    exact hreads

/-! ## Code between jumps -/

namespace Course

/-- Nothing falls into the code or out of it, and it finds its operands if it goes back to the top
of the loop with an empty stack. -/
def Closed (x : Course Unit) : Prop :=
  ∀ d s log, x ⟨d, false⟩ = some ((), s, log) → (∀ t ∈ log.transfers, t = 0) → log.size ≤ 65535 →
    log.fed = true ∧ s.reachable = false

variable {x y : Course Unit} {effect : Int} {count : Nat}

theorem closed_pure : Closed (pure ()) := by
  intro d s log h _ _
  cases h
  exact ⟨rfl, rfl⟩

theorem closed_bind (hx : Closed x) (hy : Closed y) : Closed (x >>= fun _ => y) := by
  intro d s log h hzero hsize
  obtain ⟨⟨⟩, s₁, log₁, log₂, h₁, h₂, rfl⟩ := bind_eq_some.mp h
  simp only [Log.append_transfers, Log.append_size] at hzero hsize
  obtain ⟨hfed₁, hdead⟩ := hx d s₁ log₁ h₁ (fun t ht => hzero t (mem_append_left _ ht)) (by omega)
  obtain ⟨d₁, live⟩ := s₁
  obtain rfl : live = false := hdead
  obtain ⟨hfed₂, hend⟩ := hy d₁ s log₂ h₂ (fun t ht => hzero t (mem_append_right _ ht)) (by omega)
  exact ⟨by rw [Log.append_fed, hfed₁, hfed₂]; rfl, hend⟩

theorem closed_ending (hx : Feeds 0 x effect count) : Closed (do place 0; x; halt) := by
  intro d s log h hzero hsize
  obtain ⟨⟨⟩, s₁, log₁, rest, hplace, hrest, rfl⟩ := bind_eq_some.mp h
  obtain ⟨rfl, rfl⟩ := place_known hplace (Int.le_refl 0)
  obtain ⟨⟨⟩, s₂, log₂, log₃, hrun, hhalt, rfl⟩ := bind_eq_some.mp hrest
  cases hhalt
  rw [Log.empty_append, Log.append_empty] at hzero hsize ⊢
  exact ⟨(hx.fed 0 s₂ log₂ hrun hzero (by omega) (by omega)).1, rfl⟩

/-- More slots need no operands. -/
theorem feeds_slots (need count : Nat) : Feeds need (slots count) count count := by
  induction count generalizing need with
  | zero => exact feeds_pure need
  | succ count ih =>
    have hpush : Feeds need (step 0 1) 1 1 :=
      feeds_push.mono (Nat.zero_le _) (Nat.le_refl _) (by omega)
    have hfeeds := feeds_bind (by omega) hpush (ih 0)
    rw [Int.add_comm, Nat.add_comm] at hfeeds
    exact hfeeds

theorem closed_leaving (paramCount : Nat) : Closed (leaving paramCount) := by
  have hcall : Feeds (paramCount + 1) (step (paramCount + 1) (-paramCount)) (-paramCount) 1 :=
    feeds_step (by omega)
  have hfeeds := feeds_bind (by omega) (feeds_bind (by omega) (feeds_bind (by omega) feeds_push
    (feeds_slots 0 paramCount)) hcall) feeds_end
  have hclosed := closed_ending hfeeds
  simp only [bind_assoc] at hclosed
  exact hclosed

theorem closed_refusal : Closed refusal := by
  have hpush : Feeds 1 (step 0 1) 1 1 := feeds_push.mono (Nat.zero_le _) (Nat.le_refl _) (by omega)
  have hfeeds := feeds_bind (by omega) (feeds_bind (by omega)
    (feeds_bind (by omega) feeds_push hpush) feeds_two) feeds_end
  have hclosed := closed_ending hfeeds
  simp only [bind_assoc] at hclosed
  exact hclosed

/-- An action that leaves no value goes back one too low, which is not allowed. -/
theorem closed_action {n : Node} (h : n.Fed) : Closed (do place 0; n.course; reach transfer) := by
  intro d s log hrun hzero hsize
  obtain ⟨⟨⟩, s₁, log₁, rest, hplace, hrest, rfl⟩ := bind_eq_some.mp hrun
  obtain ⟨rfl, rfl⟩ := place_known hplace (Int.le_refl 0)
  obtain ⟨⟨⟩, ⟨d₂, live⟩, log₂, log₃, hcourse, hreach, rfl⟩ := bind_eq_some.mp hrest
  rw [Log.empty_append] at hzero hsize ⊢
  simp only [Log.append_transfers, Log.append_size] at hzero hsize
  obtain ⟨hfed, hend⟩ := h.fed 0 ⟨d₂, live⟩ log₂ hcourse
    (fun t ht => hzero t (mem_append_left _ ht)) (by omega) (by omega)
  rw [Log.append_fed, hfed, Bool.true_and]
  cases live with
  | false =>
    cases hreach
    exact ⟨rfl, rfl⟩
  | true =>
    obtain ⟨rfl, -⟩ : d₂ = 0 + n.effect ∧ _ := hend rfl
    have hlow := n.effect_nonneg
    have hhigh := n.effect_le_one
    obtain ⟨log₄, htransfer, htransfers, -, hfed₄⟩ :=
      transfer_at (d := 0 + n.effect) (by omega) (by omega)
    cases hreach.symm.trans htransfer
    have hback := hzero (0 + n.effect - 1) (mem_append_right _ (by simp [htransfers]))
    exact ⟨hfed₄ (by omega), rfl⟩

theorem closed_actions {ns : List Node} (h : ∀ n ∈ ns, n.Fed) : Closed (actions ns) := by
  induction ns with
  | nil => exact closed_pure
  | cons n rest ih =>
    have hclosed := closed_bind (closed_action (h n mem_cons_self))
      (ih fun m hm => h m (mem_cons_of_mem n hm))
    simp only [bind_assoc] at hclosed
    exact hclosed

theorem closed_loop (paramCount : Nat) {ns : List Node} (h : ∀ n ∈ ns, n.Fed) :
    Closed (loop paramCount ns) :=
  closed_bind (closed_leaving paramCount) (closed_bind (closed_actions h) closed_refusal)

end Course

/-! ## Compiled expressions -/

/-- Code with a jump to a label that is not placed cannot be assembled. -/
theorem Assembled.not_hangs (h : Assembled c chunk) (l : Label) : ¬ c.Hangs l := by
  rintro ⟨⟨info, hinfo, hposition⟩, hjump⟩
  obtain ⟨operand, hoperand⟩ := (encodeAll_ok h.code).1 ⟨.jump, l⟩
    (mem_append_right _ (Array.mem_toList_iff.mpr hjump))
  have hfound : c.labelOffset c.offsets l = .ok operand := hoperand
  rw [Code.labelOffset, hinfo] at hfound
  simp only [hposition] at hfound
  cases hfound

/-- A new buffer, with a cache or without, in which nothing lacks operands. -/
theorem Code.shows_intercepted (cache : Option Nat) (name : Text) (params : List Text) :
    Shows [] { create name params with interceptor := cache.map .cache } ∧
      Kept { create name params with interceptor := cache.map .cache } := by
  obtain ⟨locals, heq⟩ := exists_create_eq name params
  have hsound := sound_create 1 name params
  rw [heq] at hsound ⊢
  refine ⟨⟨rfl, rfl, nofun, nodup_nil, nofun, nofun, nofun, nofun, fun first hfirst => ?_⟩,
    [], [], hsound.of_eq rfl rfl rfl rfl rfl rfl rfl⟩
  obtain ⟨id, -, rfl⟩ := Option.map_eq_some_iff.mp hfirst
  exact ⟨id, rfl, nofun⟩

/-- Code that is assembled by itself never asks for the top of a loop, since nothing places it. -/
theorem Assembled.loop?_eq_none (hassembled : Assembled (c.appended .ret 0 (-1)).ended chunk)
    (hemit : n.emitInto.Yields marks
      { Code.create name params with interceptor := cache.map .cache } () c) : c.loop? = none := by
  let c₀ : Code := { Code.create name params with interceptor := cache.map .cache }
  have hnone : ∀ l, c₀.loop? ≠ some l := by
    obtain ⟨locals, heq⟩ := Code.exists_create_eq name params
    simp only [c₀]
    rw [heq]
    exact nofun
  have hkeeping : c₀.Keeping [] := ⟨fun l hl => absurd hl (hnone l), nofun⟩
  cases hloop : c.loop? with
  | none => rfl
  | some l =>
    obtain ⟨hplace, hjump⟩ := (n.steadies hemit rfl).hangs hkeeping
      (fun l hl => absurd hl (hnone l)) l hloop
    exact absurd ⟨hplace, Array.mem_push_of_mem _ hjump⟩ (hassembled.not_hangs l)

/-- A value whose operands are there compiles to code that is supplied. -/
theorem compileProgram_supplied {code : Code} (hready : n.Everywhere Node.Ready)
    (hvalue : n.effect = 1)
    (hcompile : compileProgram marks (cache.map .cache) name params n = (.ok p, code)) :
    p.chunk.Supplied := by
  let c₀ : Code := { Code.create name params with interceptor := cache.map .cache }
  obtain ⟨hc₀, hkept₀⟩ := Code.shows_intercepted cache name params
  obtain ⟨c₁, hemit, hassembled, -⟩ := toProgram_of_yields (c := c₀) hcompile
  have hfirst := n.onCourse [] marks c₀ hc₀
  rw [hemit] at hfirst
  obtain ⟨⟨⟩, log, hcourse, hc₁, hmoves⟩ := hfirst
  have hsecond := Emit.follows_end (.inl rfl) marks c₁ hc₁
  rw [show (do Emit.append .ret 0 (-1); Emit.endReach : Emit Unit) marks c₁ =
    (.ok (), (c₁.appended .ret 0 (-1)).ended) from rfl] at hsecond
  obtain ⟨⟨⟩, log', hend, hc₂, hmoves'⟩ := hsecond
  -- Nothing places the top of the loop here, so no code goes back there.
  have htransfers : log.transfers = [] := by
    by_contra hne
    have hlooped := hmoves.looped hne
    rw [hassembled.loop?_eq_none hemit] at hlooped
    cases hlooped
  have hroom := hassembled.instrs_le
  rw [Array.length_toList] at hroom
  have hstart : c₀.standing = ⟨0, true⟩ := by
    obtain ⟨locals, heq⟩ := Code.exists_create_eq name params
    simp only [c₀]
    rw [heq]
    rfl
  have hsize := hmoves.size
  have hsize' := hmoves'.size
  rw [hstart] at hcourse
  obtain ⟨hfed, hdepth⟩ := (Node.fed hready).fed 0 c₁.standing log hcourse
    (fun t ht => by rw [htransfers] at ht; exact absurd ht not_mem_nil) (by omega) (by omega)
  have hfed' : log'.fed = true := by
    have hlog : some ((), _, (⟨1, !c₁.reachable || decide (((1 : Nat) : Int) ≤ c₁.depth),
        []⟩ ++ .empty : Log)) = some ((), _, log') := hend
    simp only [Option.some.injEq, Prod.mk.injEq, true_and] at hlog
    obtain ⟨-, rfl⟩ := hlog
    rw [Log.append_empty]
    cases hlive : c₁.reachable with
    | false => rfl
    | true =>
      obtain ⟨hheight, -⟩ := hdepth hlive
      have hone : c₁.depth = 0 + n.effect := hheight
      rw [hone, hvalue]
      rfl
  have hkept₂ := (hmoves.trans hmoves').kept (by rw [Log.append_fed, hfed, hfed']; rfl) hroom hkept₀
  exact hkept₂.supplied hassembled hc₂.outside rfl

/-! ## Generated functions -/

theorem interpreter_of_generateProgram
    (hgenerate : (t.generateProgram h marks cache root name params).1 = .ok p) :
    (Emit.interpreter root params.length cache t marks (Code.create name params) :
      Except Failure Program × Code).1 = .ok p := by
  rw [ActionTable.generateProgram] at hgenerate
  split at hgenerate
  next => cases hgenerate
  next =>
    split at hgenerate
    next => cases hgenerate
    next => exact hgenerate

/-- Actions whose operands are there make up code that is supplied. -/
theorem generateProgram_supplied (hready : ∀ n ∈ t.actions, n.Everywhere Node.Ready)
    (hgenerate : (t.generateProgram h marks cache root name params).1 = .ok p) :
    p.chunk.Supplied := by
  have hrun := interpreter_of_generateProgram hgenerate
  obtain ⟨l, c, ⟨htop, place, hlabel⟩, -, -, -, -, hkept, ⟨result, c'⟩, hmeets, heq⟩ :=
    Emit.run_interpreter marks root cache t name params
  rw [heq] at hrun
  cases result with
  | error failure => cases hrun
  | ok _ =>
    obtain ⟨⟨⟩, log, hcourse, hc', hmoves⟩ := hmeets
    cases hfinish : (Emit.finish marks c' : Except Failure Program × Code) with
    | mk result c'' =>
    obtain rfl : result = .ok p := by
      rw [← hrun]
      exact (congrArg Prod.fst hfinish).symm
    have hyields : (Emit.program >>= fun p => Emit.report (.generated p.name p.chunk) >>= fun _ =>
        pure p).Yields marks c' p c'' := hfinish
    obtain ⟨p', c₁, hprogram, hrest⟩ := Emit.yields_bind.mp hyields
    obtain ⟨-, c₂, -, hp⟩ := Emit.yields_bind.mp hrest
    obtain ⟨rfl, -⟩ := Emit.yields_pure.mp hp
    obtain ⟨hassembled, -⟩ := program_of_yields hprogram
    have hroom := hassembled.instrs_le
    rw [Array.length_toList] at hroom
    have hsize := hmoves.size
    have hbefore := hmoves.room
    have hfed : ∀ n ∈ t.actions.toList, n.Fed := fun n hn =>
      Node.fed (hready n (Array.mem_toList_iff.mp hn))
    obtain ⟨hlog, hend⟩ := Course.closed_loop params.length hfed 0 c'.standing log hcourse
      (hmoves.atop l place htop hlabel).2 (by omega)
    exact (hmoves.kept hlog hroom (hkept (by omega))).supplied hassembled hc'.outside hend

/-- A compiled function whose code is supplied. -/
def Heap.Supplies (h : Heap) (f : Value) : Prop :=
  ∃ r closure, f = .function r ∧ h.function? r = some (.compiled closure) ∧
    (h.chunk closure.chunk).Supplied

/-- Accepted code never runs out of operands, neither that of a compiled value nor that of a
generated function, with a cache or without, if the operands that are counted on without a check are
values: what a choice goes by, the receiver of a method, and all parts of a call that spreads
arguments. -/
theorem operands_supplied (marks : Marks) (cache : Option Nat) (name : Text) (params : List Text)
    (globals : Bindings) (h₀ h₁ : Heap) (f : Value) :
    (∀ n : Node, n.Everywhere Node.Ready → n.effect = 1 →
      compile marks (cache.map .cache) name params n globals h₀ = (.ok f, h₁) → h₁.Supplies f) ∧
    ∀ (t : ActionTable) (root : Value), (∀ n ∈ t.actions, n.Everywhere Node.Ready) →
      t.generate marks cache root name params globals h₀ = (.ok f, h₁) → h₁.Supplies f := by
  constructor
  · intro n hready hvalue hcompile
    obtain ⟨p, code, r, closure, hprogram, rfl, hfunction, -, -, hchunk⟩ := compile_of_ok hcompile
    refine ⟨r, closure, rfl, hfunction, ?_⟩
    rw [hchunk]
    exact compileProgram_supplied hready hvalue hprogram
  · intro t root hready hgenerate
    obtain ⟨p, r, closure, hprogram, rfl, hfunction, -, -, hchunk, -⟩ := generate_of_ok hgenerate
    refine ⟨r, closure, rfl, hfunction, ?_⟩
    rw [hchunk]
    exact generateProgram_supplied hready hprogram

theorem operands_supplied_climb :
    ∃ f h₁, ({ actions := #[Node.climb] } : ActionTable).generate (fun _ _ => false)
      (some 0) (.tuple 2) "f" ["x"] {} smallTree = (.ok f, h₁) ∧ h₁.Supplies f := by
  generalize hresult : (({ actions := #[Node.climb] } : ActionTable).generate (fun _ _ => false)
    (some 0) (.tuple 2) "f" ["x"] {} smallTree : Except Failure Value × Heap) = outcome
  have hok : outcome.1 = .ok (.function 3) := by
    rw [← hresult]
    decide +kernel
  obtain ⟨_, h₁⟩ := outcome
  cases hok
  have hready : ∀ n ∈ #[Node.climb], n.Everywhere Node.Ready := by decide +kernel
  exact ⟨_, h₁, rfl, (operands_supplied _ _ _ _ _ _ _ _).2 _ _ hready hresult⟩

/-- A choice that goes by an assignment. -/
def Node.groundless : Node :=
  .cond (.store "x" (.const (.int 1) "int:1")) (.store "x" (.const (.int 2) "int:2"))
    (.const (.int 3) "int:3")

/-- A choice that has no value to go by is accepted, since the alternative that is taken for true
leaves one value less, too. The function runs out of operands. -/
theorem compile_groundless_underflows :
    Node.groundless.effect = 1 ∧
      ∃ h₁, compile (fun _ _ => false) none "f" ["x"] Node.groundless {} {} =
          (.ok (.function 0), h₁) ∧
        (callWithin 65536 (.function 0) [.int 7] [] h₁).1 = .error (.fault .stackUnderflow) := by
  refine ⟨rfl, (compile (fun _ _ => false) none "f" ["x"] Node.groundless {} {}).2, by cbv, ?_⟩
  decide +kernel

end ExprBackend
