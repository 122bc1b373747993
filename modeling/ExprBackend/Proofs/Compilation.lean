import ExprBackend.Proofs.Branching

/-! # Compiled expressions

The code of an expression simulates what the expression performs. The proof goes
down the expression: each form of expression is emitted as a sequence or a branch
of the emissions of its operands, and these pass through the gate. What an
expression has to satisfy so that its code can be trusted is collected in
`Node.Fits`.
-/

namespace ExprBackend

open List

/-! ## Expressions that fit -/

variable {M : Setting} {action : List Value → Perform (List Value)} {args ns : List Node}
  {base : List Text} {c : Code} {callee n object : Node} {change need : Int} {count : Nat}
  {ctx ctx' : Context} {doubleStar star : Option Node} {gate : Gate} {keywords : List (Text × Node)}
  {links : List (CompareOp × Node)} {method : Bool} {mode : Mode} {x : Emit Unit}

namespace Context

theorem afterAll_eq (ctx : Context) (ns : List Node) :
    ctx.afterAll ns =
      ⟨ctx.scope ++ ns.flatMap Node.assigned, ctx.volatile ++ ns.flatMap Node.assigned⟩ := by
  induction ns generalizing ctx with
  | nil => simp [afterAll]
  | cons n rest ih =>
    change (ctx.after n).afterAll rest = _
    rw [ih]
    simp [after]

theorem afterAll_cons (ctx : Context) (n : Node) (rest : List Node) :
    ctx.afterAll (n :: rest) = (ctx.after n).afterAll rest := rfl

theorem afterAll_append (ctx : Context) (first rest : List Node) :
    ctx.afterAll (first ++ rest) = (ctx.afterAll first).afterAll rest :=
  foldl_append

theorem scope_subset_after (ctx : Context) (n : Node) : ctx.scope ⊆ (ctx.after n).scope :=
  subset_append_left _ _

theorem scope_subset_afterAll (ctx : Context) (ns : List Node) :
    ctx.scope ⊆ (ctx.afterAll ns).scope := by
  rw [afterAll_eq]
  exact subset_append_left _ _

/-- What is known inside an expression, before its operands. -/
def entering (ctx : Context) : Node → Context
  | .store name _ => ctx.touch name
  | _ => ctx

end Context

namespace Node

theorem assigned_store (name : Text) (value : Node) :
    (Node.store name value).assigned = name :: value.assigned := by
  simp [assigned, subexpressions_eq (.store name value)]

variable {m : Node}

theorem assigned_eq (h : ∀ name value, n ≠ .store name value) :
    n.assigned = n.children.flatMap assigned := by
  rw [assigned, subexpressions_eq, filterMap_cons, filterMap_flatMap]
  cases n with
  | store name value => exact absurd rfl (h name value)
  | _ => rfl

/-- An expression is emitted operand by operand. -/
theorem after_eq (h : ∀ name value, n ≠ .store name value) (ctx : Context) :
    ctx.after n = ctx.afterAll n.children := by
  rw [Context.afterAll_eq, Context.after, assigned_eq h]

theorem assigned_subset (h : m ∈ n.children) : m.assigned ⊆ n.assigned := by
  intro name hname
  rw [assigned, mem_filterMap] at hname ⊢
  obtain ⟨k, hk, hstore⟩ := hname
  refine ⟨k, ?_, hstore⟩
  rw [subexpressions_eq, mem_cons, mem_flatMap]
  exact .inr ⟨m, h, hk⟩

/-- What the construction of an expression guarantees: chains and sequences are not empty, keys and
values of a dictionary come in pairs, and the mark of an absent receiver is no constant. -/
def Built : Node → Prop
  | .const v _ => v ≠ .noReceiver
  | .compare _ links => links ≠ []
  | .logical _ operands => operands ≠ []
  | .collection .dict elements => elements.length % 2 = 0
  | .sequence steps => steps ≠ []
  | _ => True

instance : DecidablePred Built
  | .const v _ => inferInstanceAs (Decidable (v ≠ .noReceiver))
  | .compare _ links => inferInstanceAs (Decidable (links ≠ []))
  | .logical _ operands => inferInstanceAs (Decidable (operands ≠ []))
  | .collection .dict elements => inferInstanceAs (Decidable (elements.length % 2 = 0))
  | .sequence steps => inferInstanceAs (Decidable (steps ≠ []))
  | .collection .list _ | .collection .tuple _ | .var _ | .unary _ _ | .binary _ _ _ | .cond _ _ _
  | .subscript _ _ | .sliceObj _ _ _ | .slice _ _ _ _ | .attr _ _ | .call _ _ _ _ _ _
  | .store _ _ | .next _ => .isTrue trivial

def isSequence : Node → Bool
  | .sequence _ => true
  | _ => false

/-- All operands leave a value on the stack; only steps of a sequence need not. -/
def Valued (n : Node) : Prop := n.isSequence = false → ∀ m ∈ n.children, m.effect = 1

instance : DecidablePred Valued := fun n =>
  inferInstanceAs (Decidable (n.isSequence = false → ∀ m ∈ n.children, m.effect = 1))

def mentioned? : Node → Option Text
  | .var name | .store name _ => some name
  | _ => none

def isNext : Node → Bool
  | .next _ => true
  | _ => false

/-- What is required of an expression so that its code can be trusted, its operands apart. -/
structure Proper (mode : Mode) (n : Node) : Prop where
  built : n.Built
  valued : n.Valued
  visible : ∀ name ∈ n.mentioned?, mode.Visible name
  loops : n.isNext = true → mode.head.isSome = true

/-- The code of an expression can be trusted at a place in a buffer. -/
structure Fits (mode : Mode) (ctx : Context) (n : Node) : Prop where
  proper : n.Everywhere (Proper mode)
  settled : mode.head.isSome = true → n.assigned ⊆ ctx.scope

theorem Fits.child (h : n.Fits mode ctx) (hm : m ∈ n.children) (hctx : ctx.scope ⊆ ctx'.scope) :
    m.Fits mode ctx' where
  proper := (everywhere_iff.mp h.proper).2 m hm
  settled hhead := fun _ hname => hctx (h.settled hhead (assigned_subset hm hname))

theorem Fits.here (h : n.Fits mode ctx) : n.Proper mode :=
  (everywhere_iff.mp h.proper).1

end Node

/-- In a loop, several expressions that are left out change nothing. -/
theorem Code.Ready.afterAll (h : c.Ready mode ctx) (hhead : mode.head.isSome = true)
    (hassigned : ∀ m ∈ ns, m.assigned ⊆ ctx.scope) : c.Ready mode (ctx.afterAll ns) := by
  induction ns generalizing ctx with
  | nil => exact h
  | cons n rest ih =>
    rw [forall_mem_cons] at hassigned
    exact ih (h.after hhead fun name hname => hassigned.1 hname) fun m hm =>
      Subset.trans (hassigned.2 m hm) (ctx.scope_subset_after n)

/-! ## The gate -/

namespace Action

/-- Leaves on the stack what an expression with a promise leaves. -/
def delivers (effect : Int) (action : Perform Value) (st : List Value) : Perform (List Value) := do
  let v ← action
  return if effect = 1 then v :: st else st

def pushes (action : Perform Value) (st : List Value) : Perform (List Value) := do
  let v ← action
  return v :: st

/-- Replaces the top by what becomes of it. -/
def replaces (f : Value → Perform Value) : List Value → Perform (List Value)
  | v :: st => pushes (f v) st
  | [] => underflow

end Action

open ExprBackend.Action

/-- The emission of expressions of a kind passes through a gate. -/
def Emit.PassesOn (Q : Node → Prop) (M : Setting) (mode : Mode) (gate : Gate) : Prop :=
  ∀ (n : Node) (ctx : Context) (x : Emit Unit) (action : Perform Value), Q n →
    Sim M mode x (ctx.entering n) (ctx.after n) 0 1 n.effect (delivers n.effect action) →
    Sim M mode (expression n x) ctx (ctx.after n) 0 1 n.effect
      (delivers n.effect (gate n ctx action))

/-- The emission of all expressions passes through a gate. -/
abbrev Emit.Passes (M : Setting) (mode : Mode) (gate : Gate) : Prop :=
  PassesOn (fun _ => True) M mode gate

/-- What is noted about an emission, and its check, do not matter to its code. -/
theorem Emit.sim_expression (h : Sim M mode (interceptable n x) ctx ctx' need count change action) :
    Sim M mode (expression n x) ctx ctx' need count change action where
  keeps := by
    refine ⟨grows.kept.gate h.keeps.growing, fun marks c u c' hx hready hlive hneed hsize => ?_⟩
    obtain ⟨c1, hinner, -, events, observations, rfl⟩ := expression_of_yields hx
    obtain ⟨hready1, hflow, hlive1⟩ := h.keeps.step hinner (hready.noted ..) hlive hneed hsize
    exact ⟨hready1.noted .., ⟨hflow.labels, hflow.size_le, hflow.dead, hflow.depth⟩, hlive1⟩
  run marks c u c' hx hready hlive hneed hgrows hmarks st s hst := by
    obtain ⟨c1, hinner, -, events, observations, rfl⟩ := expression_of_yields hx
    have hrun := h.run hinner (hready.noted ..) hlive hneed
      ((c1.grows_noted ..).trans hgrows) hmarks st s hst
    generalize action st s = outcome at hrun ⊢
    cases hrun with
    | value hlive' hlength hle hruns => exact .value hlive' hlength hle hruns
    | failure hlt hstops => exact .failure hlt hstops
    | transfer hhead hover hruns => exact .transfer hhead hover hruns
    | refusal hhead hover hstops => exact .refusal hhead hover hstops

/-- Without an interceptor every expression is let through. -/
theorem Emit.passes_opened
    (hnone : ∀ volatile extras, mode.Interception volatile extras → extras.interceptor = none)
    (htouch : ∀ volatile name extras, mode.Interception volatile extras →
      mode.Interception (volatile ++ [name]) extras) : Passes M mode Gate.opened := by
  intro n ctx x action _ hsim
  have hentering : ∀ c : Code, c.Ready mode ctx → c.Ready mode (ctx.entering n) := by
    intro c hready
    cases n with
    | store name value => exact { hready with interception := htouch _ _ _ hready.interception }
    | _ => exact hready
  have hinner : ∀ {marks c u c'}, (interceptable n x).Yields marks c u c' → c.Ready mode ctx →
      x.Yields marks c u c' := fun h hready =>
    (yields_interceptable (hnone _ _ hready.interception)).mp h
  exact sim_expression
    ⟨⟨@Kept.interceptable _ grows.kept [] n _ (fun _ => hsim.keeps.growing),
      fun marks c u c' h hready =>
      hsim.keeps.step (hinner h hready) (hentering c hready)⟩,
    fun marks c u c' h hready => hsim.run (hinner h hready) (hentering c hready)⟩

/-- An expression that leaves a value passes the gate if it is emitted operand by operand. -/
theorem Emit.PassesOn.value {Q : Node → Prop} {M : Setting} {mode : Mode} {gate : Gate}
    (hgate : PassesOn Q M mode gate) {ctx : Context} {n : Node} (hQ : Q n)
    (hn : ∀ name value, n ≠ .store name value) (heffect : n.effect = 1) {action : Perform Value}
    (h : Sim M mode n.emit ctx (ctx.afterAll n.children) 0 1 1 (pushes action)) :
    Sim M mode (expression n n.emit) ctx (ctx.after n) 0 1 n.effect
      (delivers n.effect (gate n ctx action)) := by
  have hentering : ctx.entering n = ctx := by
    cases n with
    | store name value => exact absurd rfl (hn name value)
    | _ => rfl
  refine hgate n ctx n.emit action hQ ?_
  rw [hentering, Node.after_eq hn, heffect]
  exact h

namespace Node

/-! ## Operands -/

/-- The code of an expression simulates what the expression performs wherever some names are in
scope. -/
def Simulated (M : Setting) (mode : Mode) (gate : Gate) (base : List Text) (n : Node) : Prop :=
  ∀ ctx : Context, base ⊆ ctx.scope → Emit.Sim M mode (Emit.expression n n.emit) ctx (ctx.after n)
    0 1 n.effect (delivers n.effect (n.perform M.call M.closure.globals gate ctx))

/-- The code of an operand leaves its value on the stack. -/
def Pushed (M : Setting) (mode : Mode) (gate : Gate) (base : List Text) (n : Node) : Prop :=
  ∀ {ctx : Context}, base ⊆ ctx.scope → Emit.Sim M mode (Emit.expression n n.emit) ctx (ctx.after n)
    0 1 1 (pushes (n.perform M.call M.closure.globals gate ctx))

section Operands

variable {cleanup done : Label} {call : Caller} {globals : Bindings} {s s' : Scene}
  {vs : List Value} {f : Value → Option Value → Perform Value}

open Emit

theorem sim_emitAll (h : ∀ m ∈ ns, m.Pushed M mode gate base) (hctx : base ⊆ ctx.scope) :
    Sim M mode (emitAll ns) ctx (ctx.afterAll ns) 0 ns.length ns.length fun st => do
      let vs ← performAll M.call M.closure.globals gate ns ctx
      return vs.reverse ++ st := by
  induction ns generalizing ctx with
  | nil =>
    rw [emitAll, emitAllBy, performAll]
    refine (sim_pure ()).congr fun st _ => ?_
    simp
  | cons n rest ih =>
    rw [forall_mem_cons] at h
    rw [emitAll, emitAllBy, Context.afterAll_cons]
    refine (sim_seq 0 (by omega)
      (h.1 hctx) fun _ => ih h.2 (Subset.trans hctx (ctx.scope_subset_after n))).adjust
      (by simp only [length_cons]; omega) fun st _ => ?_
    simp [Action.pushes, performAll]

theorem sim_emitBound {bound : Option Node} (h : ∀ m ∈ bound.toList, m.Pushed M mode gate base)
    (hctx : base ⊆ ctx.scope) :
    Sim M mode (emitBound bound) ctx (ctx.afterAll bound.toList) 0 1 1
      (pushes (performBound M.call M.closure.globals gate bound ctx)) := by
  cases bound with
  | none => exact sim_loadNone.congr fun st _ => rfl
  | some n => exact h n (by simp) hctx

theorem branch_leave (junction : Junction) (goOn : List Value → Perform (List Value)) (v : Value)
    (st : List Value) :
    Action.branch (junction.endsWith true) true goOn pure (v :: st) = (do
      if junction.endsWith (← Perform.ofRun (Run.truthy v)) then return v :: st else goOn st) := by
  rw [Action.branch]
  congr 1
  funext truth
  cases junction <;> cases truth <;> rfl

/-- The tail of a short-circuit chain. -/
theorem tail_emitOperands (junction : Junction) (done : Label) (hne : ns ≠ [])
    (h : ∀ m ∈ ns, m.Pushed M mode gate base) (hctx : base ⊆ ctx.scope) :
    Tail M mode [] done False (do emitOperands junction done ns; mark done) ctx (ctx.afterAll ns)
      0 1 1 1 (pushes (performOperands M.call M.closure.globals gate junction ns ctx)) pure := by
  induction ns generalizing ctx with
  | nil => exact absurd rfl hne
  | cons n rest ih =>
    rw [forall_mem_cons] at h
    have hn := h.1 hctx
    cases rest with
    | nil =>
      rw [emitOperands, emitOperandsBy, performOperands]
      exact tail_mark hn
    | cons m rest =>
      have htail := ih (by simp) h.2 (Subset.trans hctx (ctx.scope_subset_after n))
      rw [emitOperands, emitOperandsBy_cons, leave_eq]
      simp only [bind_assoc]
      refine (tail_branch _ true 0 hn htail rfl (by simp) (by omega)).adjust
        (by omega) rfl rfl fun st => ?_
      simp only [Action.pushes, performOperands_cons, bind_assoc, pure_bind, branch_leave]
      congr 1
      funext v
      congr 1
      funext truth
      split <;> simp

/-- The last part of the code of a chain of comparisons. A comparison that is false leaves the
operand for the next one below its result; that operand is removed. -/
def emitChain (cleanup done : Label) (links : List (CompareOp × Node)) : Emit Unit := do
  emitLinks cleanup links
  jump done
  mark cleanup
  rot2
  pop
  mark done

/-- A comparison that keeps its right operand. -/
theorem sim_link (h : n.Pushed M mode gate base) (op : CompareOp) (hctx : base ⊆ ctx.scope) :
    Sim M mode (do expression n n.emit; dup; rot3; Emit.compare op.code) ctx (ctx.after n) 1 1 1 fun
      | left :: st => do
        let right ← n.perform M.call M.closure.globals gate ctx
        let result ← Perform.ofRun (Run.compare op left right)
        return result :: right :: st
      | [] => underflow := by
  refine (sim_seq 1 (by omega) (h hctx) (fun _ => sim_seq 2 (by omega) sim_dup (fun _ =>
    sim_seq 3 (by omega) sim_rot3
    (fun _ => sim_compare op)))).adjust (by omega) fun st hst => ?_
  match st, hst with
  | left :: st, _ => simp [Action.pushes, Action.dup, Action.rot3, Action.onTwo]

theorem tail_emitChain_single (hne : cleanup ≠ done) (h : n.Pushed M mode gate base)
    (op : CompareOp) (hctx : base ⊆ ctx.scope) :
    Tail M mode [done] cleanup True (emitChain cleanup done [(op, n)]) ctx (ctx.after n) 1 1 0 1
      (replaces fun left => performLinks M.call M.closure.globals gate left [(op, n)] ctx)
      (fun st => Action.rot2 st >>= Action.drop) := by
  have hlast : Sim M mode (do expression n n.emit; Emit.compare op.code) ctx (ctx.after n) 1 2
      (1 + -1) (replaces fun left => performLinks M.call M.closure.globals gate left
        [(op, n)] ctx) := by
    refine (sim_seq 1 (by omega) (h hctx) (fun _ => sim_compare op)).congr fun st hst => ?_
    match st, hst with
    | left :: st, _ => simp [Action.pushes, Action.onTwo, replaces, performLinks]
  have hcleanup : Tail M mode [] done False (do rot2; pop; mark done) (ctx.after n)
      (ctx.after n) 2 2 (0 + -1) (0 + -1) (fun st => Action.rot2 st >>= Action.drop) pure := by
    have hsim : Sim M mode (do rot2; pop) (ctx.after n) (ctx.after n) 2 2 (0 + -1) _ :=
      sim_seq 2 (by omega) sim_rot2 (fun _ => sim_pop)
    simpa only [bind_assoc] using tail_mark hsim
  have hjoin := tail_join hlast hcleanup hne (by omega)
  simp only [bind_assoc, bind_pure] at hjoin
  rw [emitChain, emitLinks, emitLinksBy, bind_assoc]
  exact hjoin.adjust (by omega) rfl rfl fun _ => rfl

theorem tail_emitChain_cons (hne : cleanup ≠ done) (h : n.Pushed M mode gate base) (op : CompareOp)
    {link : CompareOp × Node} {rest : List (CompareOp × Node)} (hctx : base ⊆ ctx.scope)
    (hrest : Tail M mode [done] cleanup True (emitChain cleanup done (link :: rest))
      (ctx.after n) ctx' 1 1 0 1 (replaces fun left =>
        performLinks M.call M.closure.globals gate left (link :: rest) (ctx.after n))
      (fun st => Action.rot2 st >>= Action.drop)) :
    Tail M mode [done] cleanup False (emitChain cleanup done ((op, n) :: link :: rest)) ctx ctx'
      1 1 0 1 (replaces fun left =>
        performLinks M.call M.closure.globals gate left ((op, n) :: link :: rest) ctx)
      (fun st => Action.rot2 st >>= Action.drop) := by
  have htail := tail_branch false true 1 (sim_link h op hctx) hrest rfl (by simpa using hne)
    (by omega)
  rw [emitChain, emitLinks, emitLinksBy_cons]
  simp only [bind_assoc] at htail ⊢
  refine htail.adjust (by omega) rfl rfl fun st => ?_
  match st with
  | left :: st =>
    simp only [replaces, Action.pushes, performLinks_cons, bind_assoc, pure_bind, Action.branch]
    congr 1
    funext right
    congr 1
    funext result
    congr 1
    funext truth
    cases truth <;> simp [Action.carried, Action.rot2, Action.drop]
  | [] => rfl

theorem tail_emitChain (hne : cleanup ≠ done) (hlinks : links ≠ [])
    (h : ∀ m ∈ links.map Prod.snd, m.Pushed M mode gate base) (hctx : base ⊆ ctx.scope) :
    Tail M mode [done] cleanup True (emitChain cleanup done links) ctx
      (ctx.afterAll (links.map Prod.snd)) 1 1 0 1
      (replaces fun left => performLinks M.call M.closure.globals gate left links ctx)
      (fun st => Action.rot2 st >>= Action.drop) := by
  induction links generalizing ctx with
  | nil => exact absurd rfl hlinks
  | cons link rest ih =>
    obtain ⟨op, n⟩ := link
    rw [map_cons, forall_mem_cons] at h
    cases rest with
    | nil => exact tail_emitChain_single hne h.1 op hctx
    | cons link rest =>
      exact (tail_emitChain_cons hne h.1 op hctx (ih (by simp) h.2
        (Subset.trans hctx (ctx.scope_subset_after n)))).relax

/-- The code of a chain of comparisons, behind the value it starts from. -/
theorem sim_emitLinks (hlinks : links ≠ []) (hsingle : links.length ≠ 1)
    (h : ∀ m ∈ links.map Prod.snd, m.Pushed M mode gate base) (hctx : base ⊆ ctx.scope) :
    Sim M mode (do
      let cleanup ← newLabel
      let done ← newLabel
      emitChain cleanup done links) ctx (ctx.afterAll (links.map Prod.snd)) 1 1 0
      (replaces fun left => performLinks M.call M.closure.globals gate left links ctx) := by
  match links, hlinks, hsingle with
  | (op, n) :: link :: rest, _, _ =>
    rw [map_cons, forall_mem_cons] at h
    have hgrowing : ∀ cleanup done, Growing (emitChain cleanup done ((op, n) :: link :: rest)) :=
      fun cleanup done => grows.bind (growing_emitLinks cleanup _) fun _ =>
        grows.bind (grows.jumpAny done) fun _ => grows.bind (grows.markAny cleanup) fun _ =>
          grows.bind (grows.append ..) fun _ => grows.bind (grows.append ..) fun _ =>
            grows.markAny done
    refine sim_of_simOn (simOn_newLabel (fun cleanup => grows.newLabel
      (hgrowing cleanup)) fun cleanup _ => simOn_newLabel (hgrowing cleanup) fun done hdone => ?_)
    have hne : cleanup ≠ done := fun heq => hdone (by simp [heq])
    exact (simOn_of_tail (tail_emitChain_cons hne h.1 op hctx (tail_emitChain hne
      (by simp) h.2 (Subset.trans hctx (ctx.scope_subset_after n))))).mono (by simp)

/-- Code that is emitted only where it can be reached. -/
theorem sim_whenReachable (h : Sim M mode x ctx ctx' need count change action)
    (hsettled : mode.head.isSome = true → ∀ c : Code, c.Ready mode ctx → c.Ready mode ctx') :
    Sim M mode (do if (← get).reachable then x) ctx ctx' need 0 change action where
  keeps := by
    refine ⟨grows.bind grows.get fun _ => Code.Progress.ite h.keeps.growing (grows.pure _),
      fun marks c u c' hx hready hlive hneed hsize => ?_⟩
    rw [yields_get_bind] at hx
    obtain ⟨-, hx⟩ | ⟨hdead, hx⟩ := yields_ite.mp hx
    · obtain ⟨hready', hflow, hlive'⟩ := h.keeps.step hx hready hlive hneed hsize
      have := hflow.size_le
      exact ⟨hready', { hflow with size_le := by omega }, hlive'⟩
    · obtain ⟨-, rfl⟩ := yields_pure.mp hx
      have hhead : mode.head.isSome = true := by
        cases hhead : mode.head with
        | none => exact absurd (hlive hhead) hdead
        | some l => rfl
      exact ⟨hsettled hhead c hready, ⟨fun _ _ _ h => h, Nat.le_refl _, id,
        fun hc => absurd hc hdead⟩, hlive⟩
  run marks c u c' hx hready hlive := by
    rw [yields_get_bind, if_pos hlive] at hx
    exact h.run hx hready hlive

theorem sim_popEffect {effect : Int} (heffect : effect = 0 ∨ effect = 1) :
    Sim M mode (popEffect effect) ctx ctx effect 0 (-effect) fun st =>
      if effect = 1 then Action.drop st else pure st := by
  rcases heffect with rfl | rfl
  · exact (sim_pure ()).congr fun st _ => by simp
  · exact sim_pop.adjust (by omega) fun st _ => by simp

theorem sim_emitSteps (hne : ns ≠ []) (h : ∀ m ∈ ns, m.Simulated M mode gate base)
    (hsettled : mode.head.isSome = true → ∀ m ∈ ns, m.assigned ⊆ base) (hctx : base ⊆ ctx.scope) :
    Sim M mode (emitSteps ns) ctx (ctx.afterAll ns) 0 1 (lastEffect ns)
      (delivers (lastEffect ns) (performSteps M.call M.closure.globals gate ns ctx)) := by
  induction ns generalizing ctx with
  | nil => exact absurd rfl hne
  | cons n rest ih =>
    rw [forall_mem_cons] at h
    cases rest with
    | nil =>
      rw [emitSteps, emitStepsBy, performSteps]
      exact h.1 ctx hctx
    | cons m rest =>
      have hctx' := Subset.trans hctx (ctx.scope_subset_after n)
      have hrest := ih (by simp) h.2 (fun hhead k hk => hsettled hhead k (by simp [hk])) hctx'
      have hskip : mode.head.isSome = true → ∀ c : Code, c.Ready mode (ctx.after n) →
          c.Ready mode ((ctx.after n).afterAll (m :: rest)) := by
        intro hhead c hready
        exact hready.afterAll hhead fun k hk =>
          Subset.trans (hsettled hhead k (mem_cons_of_mem _ hk)) hctx'
      rw [emitSteps, emitStepsBy_cons]
      refine (sim_seq 0 (by omega) (h.1 ctx hctx) (fun _ => sim_whenReachable (sim_seq n.effect
        (by omega)
        (sim_popEffect n.effect_eq) (fun _ => hrest)) hskip)).adjust
        (by rw [lastEffect_cons]; omega) fun st _ => ?_
      · rw [lastEffect_cons]
        simp only [delivers, performSteps_cons, bind_assoc, pure_bind]
        congr 1
        funext v
        split <;> simp [Action.drop, delivers]

theorem sim_emitStar (h : ∀ m ∈ star.toList, m.Pushed M mode gate base) (hctx : base ⊆ ctx.scope) :
    Sim M mode (emitStar star) ctx (ctx.afterAll star.toList) 1 0 0 fun
      | list :: st => do
        performStar M.call M.closure.globals gate list star ctx
        return list :: st
      | [] => underflow := by
  cases star with
  | none =>
    refine (sim_pure ()).congr fun st hst => ?_
    match st, hst with
    | list :: st, _ => simp [performStar]
  | some n =>
    refine (sim_seq 1 (by omega) (h n (by simp) hctx) fun _ => sim_listExtend).adjust (by omega)
      fun st hst => ?_
    match st, hst with
    | list :: st, _ => simp [Action.pushes, Action.listExtend, performStar]

theorem sim_emitDoubleStar (h : ∀ m ∈ doubleStar.toList, m.Pushed M mode gate base)
    (hctx : base ⊆ ctx.scope) :
    Sim M mode (emitDoubleStar doubleStar) ctx (ctx.afterAll doubleStar.toList) 1 0 0 fun
      | dict :: st => do
        performDoubleStar M.call M.closure.globals gate dict doubleStar ctx
        return dict :: st
      | [] => underflow := by
  cases doubleStar with
  | none =>
    refine (sim_pure ()).congr fun st hst => ?_
    match st, hst with
    | dict :: st, _ => simp [performDoubleStar]
  | some n =>
    refine (sim_seq 1 (by omega) (h n (by simp) hctx) fun _ => sim_dictMerge).adjust (by omega)
      fun st hst => ?_
    match st, hst with
    | dict :: st, _ => simp [Action.pushes, Action.dictMerge, performDoubleStar]

theorem sim_emitKeywords (h : ∀ m ∈ keywords.map Prod.snd, m.Pushed M mode gate base)
    (hctx : base ⊆ ctx.scope) :
    Sim M mode (emitKeywords keywords) ctx (ctx.afterAll (keywords.map Prod.snd)) 0 keywords.length
      (2 * keywords.length) fun st => do
        let vs ← performKeywords M.call M.closure.globals gate keywords ctx
        return vs.reverse ++ st := by
  induction keywords generalizing ctx with
  | nil =>
    rw [emitKeywords, emitKeywordsBy, performKeywords]
    refine (sim_pure ()).congr fun st _ => ?_
    simp
  | cons keyword rest ih =>
    obtain ⟨name, n⟩ := keyword
    rw [map_cons, forall_mem_cons] at h
    rw [emitKeywords, emitKeywordsBy, map_cons, Context.afterAll_cons]
    refine (sim_seq 0 (by omega) (sim_loadConst (by simp)) fun _ => sim_seq 0 (by omega)
      (h.1 hctx) fun _ => ih h.2
      (Subset.trans hctx (ctx.scope_subset_after n))).adjust
      (by simp only [length_cons]; omega) fun st _ => ?_
    simp [Action.push, Action.pushes, performKeywords]

/-- The pair on top of the stack is handed over. -/
theorem sim_handOver (hnames : ∀ c : Code, c.Ready mode ctx →
      actionName ∈ c.locals ∧ argumentName ∈ c.locals) :
    Sim M mode (do unpack 2; storeName actionName; storeName argumentName) ctx ctx 1 3 (-1) fun
      | pair :: st => do
        Perform.handOver pair
        return st
      | [] => underflow := by
  have haction : ∀ c : Code, c.Ready mode ctx → (c.declared actionName).Ready mode ctx :=
    fun c hready => by rwa [Code.declared_of_mem (hnames c hready).1]
  have hargument : ∀ c : Code, c.Ready mode ctx → (c.declared argumentName).Ready mode ctx :=
    fun c hready => by rwa [Code.declared_of_mem (hnames c hready).2]
  refine (sim_seq 1 (by omega) sim_unpack (fun _ => sim_seq 2 (by omega) (sim_storeName haction)
    (fun _ => sim_storeName hargument))).congr
      fun st hst => ?_
  cases st with
  | nil => exact absurd hst (by simp)
  | cons pair st =>
    funext s
    simp only [Action.unpack, Perform.handOver, bind_apply]
    cases hunpack : (Perform.unpack 2 pair s : Except Exit (List Value) × Scene) with
    | mk result s1 =>
      cases result with
      | error e => rfl
      | ok items =>
        obtain ⟨a, b, rfl⟩ := length_eq_two.mp (Perform.length_of_unpack hunpack)
        rfl

/-- A jump back to the top of the loop. -/
theorem jump_to_head {marks : Marks} {c' : Code} {u : Unit} {l : Label}
    (h : (do jump (← namedLabel loopLabel)).Yields marks c u c') (hhead : mode.head = some l)
    (hready : c.Ready mode ctx) :
    c' = (c.appended .jump l 0).ended ∧ (c.reachable = true → c.depth = 0) := by
  obtain ⟨hname, -, -, info, p, hlabel, hposition, -, hzero⟩ := hready.loop l hhead
  obtain ⟨_, _, hnamed, hjump⟩ := yields_bind.mp h
  obtain ⟨rfl, rfl⟩ := (yields_namedLabel hname).mp hnamed
  obtain ⟨c1, hbranch, rfl⟩ := jump_of_yields hjump
  cases hbranch with
  | dead hdead => exact ⟨rfl, fun hlive => by simp [hdead] at hlive⟩
  | backward _ hlabel' _ _ hdepth =>
    rw [hlabel] at hlabel'
    cases hlabel'
    exact ⟨rfl, fun _ => by rw [← hdepth, hzero]⟩
  | forward _ hlabel' hunplaced _ =>
    rw [hlabel] at hlabel'
    cases hlabel'
    rw [hunplaced] at hposition
    cases hposition

/-- The code of a transfer leaves for the top of the loop with an empty stack. -/
theorem sim_transfer (hhead : mode.head.isSome = true) :
    Sim M mode transfer ctx ctx 1 1 0 fun
      | pair :: _ => throw (.transfer pair)
      | [] => underflow := by
  obtain ⟨l, hl⟩ := Option.isSome_iff_exists.mp hhead
  have hpre : Sim M mode (do unpack 2; storeName actionName; storeName argumentName)
      ctx ctx 1 3 (-1)
      _ := sim_handOver fun c hready => ⟨(hready.loop l hl).2.1, (hready.loop l hl).2.2.1⟩
  have hsplit : ∀ {marks c u c'}, transfer.Yields marks c u c' → ∃ c1,
      (do unpack 2; storeName actionName; storeName argumentName).Yields marks c () c1 ∧
        (do jump (← namedLabel loopLabel)).Yields marks c1 u c' := by
    intro marks c u c' h
    have heq : transfer = ((do unpack 2; storeName actionName; storeName argumentName) >>= fun _ =>
        (do jump (← namedLabel loopLabel))) := by
      simp only [transfer, bind_assoc]
    rw [heq] at h
    obtain ⟨_, c1, hfirst, hrest⟩ := yields_bind.mp h
    exact ⟨c1, hfirst, hrest⟩
  refine ⟨⟨grows.transfer, fun marks c u c' h hready hlive hneed hsize => ?_⟩,
    fun marks c u c' h hready hlive hneed hgrows hmarks st s hst => ?_⟩
  · obtain ⟨c1, hfirst, hrest⟩ := hsplit h
    have hgrows1 := grows.bind (growing_namedLabel loopLabel) grows.jumpAny hrest
    obtain ⟨hready1, hflow, -⟩ := hpre.keeps.step hfirst hready hlive hneed
      (Nat.le_trans hgrows1.size_le hsize)
    obtain ⟨rfl, -⟩ := jump_to_head hrest hl hready1
    have hle := hflow.size_le
    refine ⟨(hready1.append .jump l (by omega) (by omega) (fun hc => ?_) hsize).1.ended,
      ⟨hflow.labels, ?_, fun _ => rfl, fun _ hc => by cases hc⟩, fun hnone => ?_⟩
    · simpa using hready1.depth_nonneg hc
    · simp only [Code.ended_body, Code.appended_body, Array.size_push]
      omega
    · rw [hl] at hnone
      cases hnone
  · obtain ⟨c1, hfirst, hrest⟩ := hsplit h
    have hgrows1 := (grows.bind (growing_namedLabel loopLabel) grows.jumpAny hrest).trans hgrows
    obtain ⟨hready1, hflow, -⟩ := hpre.keeps.step hfirst hready (fun _ => hlive) (fun _ => hneed)
      (size_le_of_grows hgrows1)
    obtain ⟨rfl, hzero⟩ := jump_to_head hrest hl hready1
    obtain ⟨-, -, -, info, p, hlabel, hposition, hle, -⟩ := hready1.loop l hl
    have hlabel' : M.code.label? l = some info :=
      hgrows1.placed l info hlabel (by rw [hposition]; rfl)
    have hplaced : M.Placed l p := ⟨info, hlabel', hposition, Nat.le_trans hle hgrows1.size_le⟩
    have hrun := hpre.run hfirst hready hlive hneed hgrows1 hmarks st s hst
    match st, hst, hrun with
    | [], hst, _ =>
      rw [length_nil] at hst
      omega
    | pair :: st, hst, hrun =>
      change M.Realizes mode _ _ _ _ ((Perform.handOver pair >>= fun _ => pure st) s) at hrun
      change M.Realizes mode _ _ _ _ (.error (.transfer pair), s)
      rw [bind_apply] at hrun
      cases hover : (Perform.handOver pair s : Except Exit Unit × Scene) with
      | mk result s' =>
        rw [hover] at hrun
        cases result with
        | ok =>
          cases hrun with
          | value hlive1 hlength _ hruns =>
            rw [hzero hlive1, Int.natCast_eq_zero, length_eq_zero_iff] at hlength
            subst hlength
            have hins : M.code.body[c1.body.size]? = some ⟨.jump, l⟩ :=
              hgrows.body_getElem? (by simp)
            exact .transfer ⟨l, info, hl, hlabel', hposition⟩ hover
              (hruns.trans (Setting.runs_jump hins hplaced))
        | error exit =>
          cases hrun with
          | failure _ hstops => exact .refusal (by rw [hl]; rfl) hover hstops
          | transfer => exact absurd hover Perform.handOver_ne_transfer
          | refusal => exact absurd hover Perform.handOver_ne_transfer

/-! ## Calls -/

theorem length_of_performAll (h : performAll call globals gate ns ctx s = (.ok vs, s')) :
    vs.length = ns.length := by
  induction ns generalizing ctx s s' vs with
  | nil =>
    cases h
    rfl
  | cons n rest ih =>
    rw [performAll] at h
    obtain ⟨v, s1, -, h⟩ := bind_eq_ok.mp h
    obtain ⟨others, s2, hothers, hpure⟩ := bind_eq_ok.mp h
    cases hpure
    rw [length_cons, length_cons, ih hothers]

theorem length_of_performKeywords
    (h : performKeywords call globals gate keywords ctx s = (.ok vs, s')) :
    vs.length = 2 * keywords.length := by
  induction keywords generalizing ctx s s' vs with
  | nil =>
    cases h
    rfl
  | cons keyword rest ih =>
    obtain ⟨name, n⟩ := keyword
    rw [performKeywords] at h
    obtain ⟨v, s1, -, h⟩ := bind_eq_ok.mp h
    obtain ⟨others, s2, hothers, hpure⟩ := bind_eq_ok.mp h
    cases hpure
    simp only [length_cons, ih hothers]
    omega

/-- An operation on values that have just been pushed. -/
theorem onMany_reverse_append (h : vs.length = count) (f : List Value → Run Value)
    (st : List Value) :
    Action.onMany count f (vs.reverse ++ st) = pushes (Perform.ofRun (f vs)) st := by
  rw [Action.onMany, if_pos (by simp [← h]), take_left' (by simp [h]), drop_left' (by simp [h]),
    reverse_reverse]
  rfl

theorem call_reverse_append (h : vs.length = count) (call : Caller) (function : Value)
    (st : List Value) : Action.call call count (vs.reverse ++ function :: st) =
      pushes (Perform.ofRun (call function vs [])) st := by
  rw [Action.call, if_pos (by simp [← h]), take_left' (by simp [h]), drop_left' (by simp [h]),
    reverse_reverse]
  rfl

theorem callMethod_reverse_append (h : vs.length = count) (call : Caller)
    (receiver function : Value) (st : List Value) :
    Action.callMethod call count (vs.reverse ++ receiver :: function :: st) =
      pushes (Perform.ofRun (call function (Machine.withReceiver receiver vs) [])) st := by
  rw [Action.callMethod, if_pos (by simp [← h]), take_left' (by simp [h]), drop_left' (by simp [h]),
    reverse_reverse]
  rfl

/-- Calls the function on the stack, with the receiver on top of it if there is one. -/
def applies (withReceiver : Bool) (f : Value → Option Value → Perform Value) (st : List Value) :
    Perform (List Value) :=
  match withReceiver, st with
  | true, receiver :: function :: st => pushes (f function (some receiver)) st
  | false, function :: st => pushes (f function none) st
  | _, _ => underflow

/-- The code of a call behind its callee. -/
def emitArguments (args : List Node) (star : Option Node) (keywords : List (Text × Node))
    (doubleStar : Option Node) (withReceiver : Bool) : Emit Unit := do
  emitAll args
  if star.isNone && doubleStar.isNone && keywords.isEmpty then
    if withReceiver then callMethod args.length else Emit.call args.length
  else
    buildList args.length
    emitStar star
    emitKeywords keywords
    buildDict keywords.length
    emitDoubleStar doubleStar
    callEx withReceiver

/-- A call with positional arguments only. -/
theorem sim_call_positional (h : ∀ m ∈ args, m.Pushed M mode gate base) (hctx : base ⊆ ctx.scope)
    (withReceiver : Bool) :
    Sim M mode (emitArguments args none [] none withReceiver) ctx (ctx.afterAll args)
      (if withReceiver then 2 else 1) 1 (if withReceiver then -1 else 0)
      (applies withReceiver
        (performArguments M.call M.closure.globals gate args none [] none ctx)) := by
  cases withReceiver with
  | true =>
    refine (sim_bind 2 (by omega) (sim_emitAll h hctx) (fun _ => grows.append ..) fun hcount _ =>
      sim_callMethod hcount).adjust
      (by simp only [if_true]; omega) fun st hst => ?_
    rcases st with _ | ⟨receiver, _ | ⟨function, st⟩⟩
    · exact absurd hst (by simp)
    · exact absurd hst (by simp)
    · funext s
      simp only [applies, pushes, performArguments, bind_assoc, pure_bind]
      refine bind_congr_of_ok fun vs s' hvs => ?_
      rw [callMethod_reverse_append (length_of_performAll hvs)]
      rfl
  | false =>
    refine (sim_bind 1 (by omega) (sim_emitAll h hctx) (fun _ => grows.append ..) fun hcount _ =>
      sim_call hcount).adjust
      (by simp only [Bool.false_eq_true, if_false]; omega) fun st hst => ?_
    cases st with
    | nil => exact absurd hst (by simp)
    | cons function st =>
      funext s
      simp only [applies, pushes, performArguments, bind_assoc, pure_bind]
      refine bind_congr_of_ok fun vs s' hvs => ?_
      rw [call_reverse_append (length_of_performAll hvs)]
      rfl

/-- A call whose arguments are gathered in a list and a dictionary. -/
theorem sim_call_spread (hspread : (star.isNone && doubleStar.isNone && keywords.isEmpty) = false)
    (hargs : ∀ m ∈ args, m.Pushed M mode gate base)
    (hstar : ∀ m ∈ star.toList, m.Pushed M mode gate base)
    (hkeywords : ∀ m ∈ keywords.map Prod.snd, m.Pushed M mode gate base)
    (hdoubleStar : ∀ m ∈ doubleStar.toList, m.Pushed M mode gate base)
    (hctx : base ⊆ ctx.scope) (withReceiver : Bool) :
    Sim M mode (emitArguments args star keywords doubleStar withReceiver) ctx
      (ctx.afterAll (args ++ star.toList ++ keywords.map Prod.snd ++ doubleStar.toList))
      (if withReceiver then 2 else 1) 1 (if withReceiver then -1 else 0)
      (applies withReceiver
        (performArguments M.call M.closure.globals gate args star keywords doubleStar ctx)) := by
  have hctx1 := Subset.trans hctx (ctx.scope_subset_afterAll args)
  have hctx2 := Subset.trans hctx1 ((ctx.afterAll args).scope_subset_afterAll star.toList)
  have hctx3 := Subset.trans hctx2 (((ctx.afterAll args).afterAll star.toList).scope_subset_afterAll
    (keywords.map Prod.snd))
  -- The height of the stack with the callee on it, above what is below.
  generalize hheight : (if withReceiver then (2 : Int) else 1) = height
  have hcall : ∀ ctx' : Context, Sim M mode (callEx withReceiver) ctx' ctx' (height + 2) 1
      (-height - 1) (Action.callEx M.call withReceiver) := by
    intro ctx'
    subst hheight
    cases withReceiver <;> exact sim_callEx _
  have hpositive : 1 ≤ height := by
    rw [← hheight]
    split <;> omega
  simp only [emitArguments, hspread, Bool.false_eq_true, if_false, Context.afterAll_append]
  refine (sim_bind height (by omega) (sim_emitAll hargs hctx) ?_ fun hcount _ =>
    sim_seq (height + args.length) (by omega)
    (sim_buildList hcount) fun _ => sim_seq (height + 1) (by omega)
    (sim_emitStar hstar hctx1) fun _ =>
    sim_bind (height + 1) (by omega) (sim_emitKeywords hkeywords hctx2) ?_ fun hcount' _ =>
    sim_seq (height + 1 + 2 * keywords.length) (by omega) (sim_buildDict hcount') fun _ =>
    sim_seq (height + 2) (by omega) (sim_emitDoubleStar hdoubleStar hctx3) fun _ => hcall _).adjust
    ⟨by omega, by omega, ?_⟩ fun st hst => ?_
  · intro _
    exact grows.bind (grows.append ..) fun _ =>
      grows.bind (growing_emitStar _) fun _ =>
      grows.bind (growing_emitKeywords _) fun _ =>
      grows.bind (grows.append ..) fun _ =>
      grows.bind (growing_emitDoubleStar _) fun _ => grows.callEx _
  · intro _
    exact grows.bind (grows.append ..) fun _ =>
      grows.bind (growing_emitDoubleStar _) fun _ => grows.callEx _
  · rw [← hheight]
    cases withReceiver <;> simp only [Bool.false_eq_true, if_false, if_true] <;> omega
  · have happlies : applies withReceiver (performArguments M.call M.closure.globals gate args star
        keywords doubleStar ctx) st = (do
          let positional ← performAll M.call M.closure.globals gate args ctx
          let list ← Perform.ofRun (Run.newList positional)
          performStar M.call M.closure.globals gate list star (ctx.afterAll args)
          let named ← performKeywords M.call M.closure.globals gate keywords
            ((ctx.afterAll args).afterAll star.toList)
          let dict ← Perform.ofRun (Run.buildDict named)
          performDoubleStar M.call M.closure.globals gate dict doubleStar
            (((ctx.afterAll args).afterAll star.toList).afterAll (keywords.map Prod.snd))
          Action.callEx M.call withReceiver (dict :: list :: st)) := by
      subst hheight
      cases withReceiver with
      | true =>
        match st, hst with
        | receiver :: function :: st, _ =>
          simp only [applies, pushes, performArguments, hspread, Bool.false_eq_true, if_false,
            bind_assoc, Action.callEx]
      | false =>
        match st, hst with
        | function :: st, _ =>
          simp only [applies, pushes, performArguments, hspread, Bool.false_eq_true, if_false,
            bind_assoc, Action.callEx]
    rw [happlies]
    funext s
    simp only [bind_assoc, pure_bind]
    refine bind_congr_of_ok fun vs s1 hvs => ?_
    rw [onMany_reverse_append (length_of_performAll hvs)]
    simp only [pushes, bind_assoc, pure_bind]
    refine bind_congr_of_ok fun list s2 _ => bind_congr_of_ok fun _ s3 _ => ?_
    refine bind_congr_of_ok fun named s4 hnamed => ?_
    rw [onMany_reverse_append (length_of_performKeywords hnamed)]
    simp only [pushes, bind_assoc, pure_bind]

/-- A call of the method of an object: the receiver is found along with the function. -/
theorem sim_call_method (name : Text) (hobject : object.Pushed M mode gate base)
    (hctx : base ⊆ ctx.scope) (hrest : Sim M mode x (ctx.after object) ctx' 2 1 (-1)
      (applies true f)) :
    Sim M mode (do expression object object.emit; loadMethod name; x) ctx ctx' 0 1 1
      (pushes do
        let (function, receiver) ← performCallee M.call M.closure.globals gate (.attr object name)
          true ctx
        f function receiver) := by
  refine (sim_seq 0 (by omega) (hobject hctx) (fun _ => sim_seq 1 (by omega) (sim_loadMethod name)
    (fun _ => hrest))).adjust (by omega) fun st _ => ?_
  simp only [pushes, Action.loadMethod, performCallee, bind_assoc, pure_bind, applies]

/-- A call of the value of an expression. -/
theorem sim_call_function (hcallee : callee.Pushed M mode gate base) (hctx : base ⊆ ctx.scope)
    (hrest : Sim M mode x (ctx.after callee) ctx' 1 1 0 (applies false f)) :
    Sim M mode (do expression callee callee.emit; x) ctx ctx' 0 1 1
      (pushes do
        let function ← callee.perform M.call M.closure.globals gate ctx
        f function none) := by
  refine (sim_seq 0 (by omega) (hcallee hctx) (fun _ => hrest)).adjust (by omega) fun st _ => ?_
  simp only [pushes, bind_assoc, pure_bind, applies]

theorem sim_emit_call (hcallee : callee.Pushed M mode gate base)
    (hobject : ∀ object name, callee = .attr object name → object.Pushed M mode gate base)
    (hctx : base ⊆ ctx.scope) (hrest : ∀ withReceiver : Bool, Sim M mode
      (emitArguments args star keywords doubleStar withReceiver) (ctx.after callee) ctx'
      (if withReceiver then 2 else 1) 1 (if withReceiver then -1 else 0) (applies withReceiver
        (performArguments M.call M.closure.globals gate args star keywords doubleStar
          (ctx.after callee)))) :
    Sim M mode (Node.call callee args star keywords doubleStar method).emit ctx ctx' 0 1 1
      (pushes do
        let (function, receiver) ← performCallee M.call M.closure.globals gate callee method ctx
        performArguments M.call M.closure.globals gate args star keywords doubleStar
          (ctx.after callee) function receiver) := by
  have hemit : (Node.call callee args star keywords doubleStar method).emit =
      emitCallee callee method >>= emitArguments args star keywords doubleStar := emitBy_call ..
  rw [hemit]
  by_cases hmethod : ∃ object name, callee = .attr object name ∧ method = true
  · obtain ⟨object, name, rfl, rfl⟩ := hmethod
    simp only [emitCallee, emitCalleeBy, bind_assoc, pure_bind]
    exact sim_call_method name (hobject object name rfl) hctx (hrest true)
  · have hcode : emitCallee callee method = (do
        expression callee callee.emit
        pure false) := by
      rw [emitCallee, emitCalleeBy]
      grind
    have hperform : performCallee M.call M.closure.globals gate callee method ctx = (do
        let function ← callee.perform M.call M.closure.globals gate ctx
        pure (function, none)) := by
      rw [performCallee]
      grind
    rw [hcode, hperform]
    simp only [bind_assoc, pure_bind]
    exact sim_call_function hcallee hctx (hrest false)

end Operands

/-! ## All expressions -/

/-- The code of an expression simulates what the expression performs wherever it fits. -/
def Compiles (M : Setting) (mode : Mode) (gate : Gate) (n : Node) : Prop :=
  ∀ ctx : Context, n.Fits mode ctx → Emit.Sim M mode (Emit.expression n n.emit) ctx (ctx.after n)
    0 1 n.effect (delivers n.effect (n.perform M.call M.closure.globals gate ctx))

section Compiles

variable {start stop step : Option Node}

open Emit

/-- The operands of an expression that fits can be used at any later place. -/
theorem Fits.operands (h : n.Fits mode ctx) (ih : ∀ m ∈ n.children, m.Compiles M mode gate) :
    ∀ m ∈ n.children, m.Simulated M mode gate ctx.scope :=
  fun m hm ctx' hctx' => ih m hm ctx' (h.child hm hctx')

/-- Unless they are steps, these leave their values on the stack. -/
theorem Fits.pushed (h : n.Fits mode ctx) (ih : ∀ m ∈ n.children, m.Compiles M mode gate)
    (hn : ∀ steps, n ≠ .sequence steps) : ∀ m ∈ n.children, m.Pushed M mode gate ctx.scope := by
  intro m hm ctx' hctx'
  have hvalued : m.effect = 1 := h.here.valued (by cases n <;> simp_all [isSequence]) m hm
  have hsim := h.operands ih m hm ctx' hctx'
  rwa [hvalued] at hsim

theorem compiles_collection {kind : CollectionKind} {elements : List Node}
    (hbuilt : (Node.collection kind elements).Built)
    (h : ∀ m ∈ elements, m.Pushed M mode gate ctx.scope) :
    Sim M mode (Node.collection kind elements).emit ctx (ctx.afterAll elements) 0 1 1
      (pushes do
        let values ← performAll M.call M.closure.globals gate elements ctx
        match kind with
        | .list => Perform.ofRun (Run.newList values)
        | .tuple => Perform.ofRun (Run.newTuple values)
        | .dict => Perform.ofRun (Run.buildDict values)) := by
  have hall := sim_emitAll h (Subset.refl _)
  have hmany : ∀ (f : List Value → Run Value) (st : List Value),
      ((do
        let vs ← performAll M.call M.closure.globals gate elements ctx
        return vs.reverse ++ st) >>= Action.onMany elements.length f) =
      pushes (do
        let values ← performAll M.call M.closure.globals gate elements ctx
        Perform.ofRun (f values)) st := by
    intro f st
    funext s
    simp only [pushes, bind_assoc, pure_bind]
    refine bind_congr_of_ok fun vs s' hvs => ?_
    rw [onMany_reverse_append (length_of_performAll hvs)]
    rfl
  cases kind with
  | list =>
    exact (sim_bind 0 (by omega) hall
      (fun _ => grows.append ..) fun hcount _ => sim_buildList hcount).adjust (by omega)
      fun st _ => hmany _ st
  | tuple =>
    exact (sim_bind 0 (by omega) hall
      (fun _ => grows.append ..) fun hcount _ => sim_buildTuple hcount).adjust (by omega)
      fun st _ => hmany _ st
  | dict =>
    have heven : elements.length % 2 = 0 := hbuilt
    have hhalf : 2 * (elements.length / 2) = elements.length := by omega
    refine (sim_bind 0 (by omega) hall (fun _ => grows.append ..) fun hcount _ =>
      sim_buildDict (Nat.le_trans (Nat.div_le_self _ 2) hcount)).adjust (by omega) fun st _ => ?_
    rw [hhalf]
    exact hmany _ st

theorem compiles_compare {subject : Node} (hbuilt : links ≠ [])
    (h : ∀ m ∈ (Node.compare subject links).children, m.Pushed M mode gate ctx.scope) :
    Sim M mode (Node.compare subject links).emit ctx
      ((ctx.after subject).afterAll (links.map Prod.snd)) 0 1 1
      (pushes do
        let v ← subject.perform M.call M.closure.globals gate ctx
        performLinks M.call M.closure.globals gate v links (ctx.after subject)) := by
  rw [children, forall_mem_cons] at h
  have hsubject := h.1 (Subset.refl _)
  have hctx := ctx.scope_subset_after subject
  by_cases hsingle : links.length = 1
  · obtain ⟨⟨op, n⟩, rfl⟩ := length_eq_one_iff.mp hsingle
    rw [emit, emitBy_compare_single]
    refine (sim_seq 0 (by omega) hsubject fun _ => sim_seq 1 (by omega)
      (h.2 n (by simp) hctx) fun _ =>
      sim_compare op).adjust (by omega) fun st _ => ?_
    simp [pushes, Action.onTwo, performLinks]
  · rw [emit, emitBy_compare_chain _ subject hsingle]
    refine (sim_seq 0 (by omega) hsubject fun _ =>
      sim_emitLinks hbuilt hsingle h.2 hctx).adjust (by omega) fun st _ => ?_
    simp [pushes, replaces]

theorem compiles_logical {junction : Junction} {operands : List Node}
    (hbuilt : operands ≠ []) (h : ∀ m ∈ operands, m.Pushed M mode gate ctx.scope) :
    Sim M mode (Node.logical junction operands).emit ctx (ctx.afterAll operands) 0 1 1
      (pushes (performOperands M.call M.closure.globals gate junction operands ctx)) := by
  refine sim_of_simOn (simOn_newLabel (fun done => grows.bind
    (growing_emitOperands junction done _) fun _ => grows.markAny done)
    fun done _ => simOn_of_tail (tail_emitOperands junction done hbuilt h (Subset.refl _)))

theorem compiles_cond {test yes no : Node}
    (h : ∀ m ∈ (Node.cond test yes no).children, m.Pushed M mode gate ctx.scope) :
    Sim M mode (Node.cond test yes no).emit ctx (((ctx.after test).after yes).after no) 0 1 1
      (pushes do
        let t ← test.perform M.call M.closure.globals gate ctx
        if ← Perform.ofRun (Run.truthy t) then
          yes.perform M.call M.closure.globals gate (ctx.after test)
        else no.perform M.call M.closure.globals gate ((ctx.after test).after yes)) := by
  simp only [children, forall_mem_cons, not_mem_nil, false_implies, implies_true, and_true] at h
  have hctx := ctx.scope_subset_after test
  refine (sim_choice (h.1 (Subset.refl _)) (h.2.1 hctx)
    (h.2.2 (Subset.trans hctx ((ctx.after test).scope_subset_after yes)))).congr fun st _ => ?_
  simp only [pushes, bind_assoc, pure_bind, Action.branch]
  congr 1
  funext t
  congr 1
  funext truth
  cases truth <;> simp [Action.carried]

/-- The bounds of a slice. -/
theorem sim_bounds (h : ∀ m ∈ present [start, stop, step], m.Pushed M mode gate base)
    (hctx : base ⊆ ctx.scope) :
    Sim M mode (do emitBound start; emitBound stop; emitBound step; buildSlice) ctx
      (ctx.afterAll (present [start, stop, step])) 0 1 1
      (pushes do
        let a ← performBound M.call M.closure.globals gate start ctx
        let b ← performBound M.call M.closure.globals gate stop (ctx.afterAll start.toList)
        let c ← performBound M.call M.closure.globals gate step
          ((ctx.afterAll start.toList).afterAll stop.toList)
        Perform.ofRun (Run.newSlice a b c)) := by
  simp only [present_cons, present_nil, append_nil, forall_mem_append] at h
  obtain ⟨hstart, hstop, hstep⟩ := h
  have hctx1 := Subset.trans hctx (ctx.scope_subset_afterAll start.toList)
  have hctx2 := Subset.trans hctx1 ((ctx.afterAll start.toList).scope_subset_afterAll stop.toList)
  have hafter : ctx.afterAll (present [start, stop, step]) =
      ((ctx.afterAll start.toList).afterAll stop.toList).afterAll step.toList := by
    simp [Context.afterAll_append]
  rw [hafter]
  refine (sim_seq 0 (by omega) (sim_emitBound hstart hctx) fun _ => sim_seq 1 (by omega)
    (sim_emitBound hstop hctx1) fun _ =>
    sim_seq 2 (by omega) (sim_emitBound hstep hctx2) fun _ => sim_buildSlice).adjust (by omega)
    fun st _ => ?_
  simp [pushes, Action.onThree]

theorem compiles_slice
    (h : ∀ m ∈ (Node.slice object start stop step).children, m.Pushed M mode gate ctx.scope) :
    Sim M mode (Node.slice object start stop step).emit ctx
      ((ctx.after object).afterAll (present [start, stop, step])) 0 1 1
      (pushes do
        let v ← object.perform M.call M.closure.globals gate ctx
        let a ← performBound M.call M.closure.globals gate start (ctx.after object)
        let b ← performBound M.call M.closure.globals gate stop
          ((ctx.after object).afterAll start.toList)
        let c ← performBound M.call M.closure.globals gate step
          (((ctx.after object).afterAll start.toList).afterAll stop.toList)
        let s ← Perform.ofRun (Run.newSlice a b c)
        Perform.ofRun (Run.index v s)) := by
  rw [children, forall_mem_cons] at h
  have hemit : (Node.slice object start stop step).emit = (do
      expression object object.emit
      (do emitBound start; emitBound stop; emitBound step; buildSlice)
      getIndex) := by
    simp only [emit, emitBy, bind_assoc]
  rw [hemit]
  refine (sim_seq 0 (by omega) (h.1 (Subset.refl _)) fun _ => sim_seq 1 (by omega)
    (sim_bounds h.2 (ctx.scope_subset_after object)) fun _ => sim_getIndex).adjust (by omega)
    fun st _ => ?_
  simp [pushes, Action.onTwo]

theorem compiles_call
    (hobject : ∀ object name, callee = .attr object name → object.Pushed M mode gate ctx.scope)
    (h : ∀ m ∈ (Node.call callee args star keywords doubleStar method).children,
      m.Pushed M mode gate ctx.scope) :
    Sim M mode (Node.call callee args star keywords doubleStar method).emit ctx
      (ctx.afterAll (Node.call callee args star keywords doubleStar method).children) 0 1 1
      (pushes do
        let (function, receiver) ← performCallee M.call M.closure.globals gate callee method ctx
        performArguments M.call M.closure.globals gate args star keywords doubleStar
          (ctx.after callee) function receiver) := by
  refine sim_emit_call (h callee (by simp)) hobject (Subset.refl _) fun withReceiver => ?_
  have hctx := ctx.scope_subset_after callee
  simp only [children, present_cons, present_nil, append_nil, cons_append,
    forall_mem_cons, forall_mem_append] at h
  cases hspread : star.isNone && doubleStar.isNone && keywords.isEmpty with
  | true =>
    simp only [Bool.and_eq_true, Option.isNone_iff_eq_none, List.isEmpty_iff] at hspread
    obtain ⟨⟨rfl, rfl⟩, rfl⟩ := hspread
    have hchildren : ctx.afterAll (Node.call callee args none [] none method).children =
        (ctx.after callee).afterAll args := by
      simp [Context.afterAll_cons]
    rw [hchildren]
    exact sim_call_positional h.2.1.1.1 hctx withReceiver
  | false =>
    have hchildren : ctx.afterAll (Node.call callee args star keywords doubleStar method).children =
        (ctx.after callee).afterAll
          (args ++ star.toList ++ keywords.map Prod.snd ++ doubleStar.toList) := by
      simp [Context.afterAll_cons]
    rw [hchildren]
    exact sim_call_spread hspread h.2.1.1.1 h.2.1.1.2 h.2.1.2 h.2.2 hctx withReceiver

theorem compiles_store {name : Text} {value : Node} (hfits : (Node.store name value).Fits mode ctx)
    (h : value.Pushed M mode gate ctx.scope) :
    Sim M mode (Node.store name value).emit (ctx.touch name) (ctx.after (.store name value)) 0 1 0
      (delivers 0 do
        let v ← value.perform M.call M.closure.globals gate (ctx.touch name)
        Perform.assign name v
        return .none) := by
  have hafter : ctx.after (.store name value) = { (ctx.touch name).after value with
      scope := ctx.scope ++ name :: value.assigned } := by
    simp [Context.after, Context.touch, assigned_store]
  have hdeclared : ∀ c : Code, c.Ready mode ((ctx.touch name).after value) →
      (c.declared name).Ready mode (ctx.after (.store name value)) := by
    intro c hready
    rw [hafter]
    refine hready.declared (hfits.here.visible name rfl) fun other => ?_
    simp only [Context.after, Context.touch, mem_append, mem_cons]
    tauto
  have hvalue : Sim M mode (expression value value.emit) (ctx.touch name)
      ((ctx.touch name).after value) 0 1 1 _ := h (Subset.refl _)
  refine (sim_seq 0 (by omega) hvalue fun _ => sim_storeName hdeclared).adjust (by omega)
    fun st _ => ?_
  simp [pushes, delivers, Action.storeLocal]

theorem compiles_next {pair : Node} (hfits : (Node.next pair).Fits mode ctx)
    (h : pair.Pushed M mode gate ctx.scope) :
    Sim M mode (Node.next pair).emit ctx (ctx.after pair) 0 1 1
      (pushes do
        let v ← pair.perform M.call M.closure.globals gate ctx
        throw (.transfer v)) := by
  refine (sim_seq 0 (by omega) (h (Subset.refl _)) fun _ =>
    sim_transfer (hfits.here.loops rfl)).adjust (by omega) fun st _ => ?_
  simp only [pushes, bind_assoc, pure_bind]
  rfl

/-- The code of an expression simulates what the expression performs, if all its parts pass the
gate. -/
theorem compilesOn {Q : Node → Prop} (hgate : PassesOn Q M mode gate) (n : Node) :
    n.Everywhere Q → n.Compiles M mode gate := by
  refine descent (P := fun n => n.Everywhere Q → n.Compiles M mode gate) (fun n ih ihBelow => ?_) n
  intro hall ctx hfits
  obtain ⟨hQ, hbelow⟩ := everywhere_iff.mp hall
  have hcompiles : ∀ m ∈ n.children, m.Compiles M mode gate := fun m hm => ih m hm (hbelow m hm)
  have hpushed := hfits.pushed hcompiles
  have hrefl : ctx.scope ⊆ ctx.scope := Subset.refl _
  cases n with
  | const v signature =>
    rw [perform]
    exact hgate.value hQ (by simp) rfl ((sim_loadConst hfits.here.built).congr fun st _ => rfl)
  | var name =>
    rw [perform]
    exact hgate.value hQ (by simp) rfl (sim_loadName (hfits.here.visible name rfl))
  | unary op operand =>
    have hoperand := hpushed (by simp) operand (by simp) hrefl
    rw [perform]
    refine hgate.value hQ (by simp) rfl ((sim_seq 0 (by omega) hoperand fun _ =>
      sim_unary op).adjust (by omega) fun st _ => ?_)
    simp [pushes, Action.onTop]
  | binary op left right =>
    have hleft := hpushed (by simp) left (by simp) hrefl
    have hright := hpushed (by simp) right (by simp) (ctx.scope_subset_after left)
    rw [perform]
    refine hgate.value hQ (by simp) rfl ((sim_seq 0 (by omega) hleft fun _ =>
      sim_seq 1 (by omega) hright fun _ =>
      sim_binary op).adjust (by omega) fun st _ => ?_)
    simp [pushes, Action.onTwo]
  | compare subject links =>
    rw [perform]
    exact hgate.value hQ (by simp) rfl (compiles_compare hfits.here.built (hpushed (by simp)))
  | logical junction operands =>
    rw [perform]
    exact hgate.value hQ (by simp) rfl (compiles_logical hfits.here.built (hpushed (by simp)))
  | cond test yes no =>
    rw [perform]
    exact hgate.value hQ (by simp) rfl (compiles_cond (hpushed (by simp)))
  | collection kind elements =>
    rw [perform]
    exact hgate.value hQ (by simp) rfl (compiles_collection hfits.here.built (hpushed (by simp)))
  | subscript base index =>
    have hbase := hpushed (by simp) base (by simp) hrefl
    have hindex := hpushed (by simp) index (by simp) (ctx.scope_subset_after base)
    rw [perform]
    refine hgate.value hQ (by simp) rfl ((sim_seq 0 (by omega) hbase fun _ =>
      sim_seq 1 (by omega) hindex fun _ =>
      sim_getIndex).adjust (by omega) fun st _ => ?_)
    simp [pushes, Action.onTwo]
  | sliceObj start stop step =>
    rw [perform]
    exact hgate.value hQ (by simp) rfl (sim_bounds (hpushed (by simp)) hrefl)
  | slice base start stop step =>
    rw [perform]
    exact hgate.value hQ (by simp) rfl (compiles_slice (hpushed (by simp)))
  | attr base name =>
    have hbase := hpushed (by simp) base (by simp) hrefl
    rw [perform]
    refine hgate.value hQ (by simp) rfl ((sim_seq 0 (by omega) hbase fun _ =>
      sim_getAttr name).adjust (by omega) fun st _ => ?_)
    simp [pushes, Action.onTop]
  | call callee args star keywords doubleStar method =>
    rw [perform_call]
    refine hgate.value hQ (by simp) rfl (compiles_call ?_ (hpushed (by simp)))
    -- A method is looked up in the receiver, an operand of the callee.
    rintro object name rfl
    have hcallee : Node.attr object name ∈
        (Node.call (.attr object name) args star keywords doubleStar method).children := by
      simp
    have hcompiles : ∀ k ∈ (Node.attr object name).children, k.Compiles M mode gate := fun k hk =>
      ihBelow _ hcallee k hk ((everywhere_iff.mp (hbelow _ hcallee)).2 k hk)
    intro ctx' hctx
    exact (hfits.child hcallee hrefl).pushed hcompiles (by simp) object (by simp) hctx
  | store name value =>
    rw [perform]
    exact hgate _ _ _ _ hQ (compiles_store hfits (hpushed (by simp) value (by simp)))
  | sequence steps =>
    rw [perform]
    refine hgate _ _ _ _ hQ ?_
    rw [after_eq (by simp)]
    exact sim_emitSteps hfits.here.built (hfits.operands hcompiles)
      (fun hhead m hm => Subset.trans (assigned_subset (n := .sequence steps) hm)
        (hfits.settled hhead)) hrefl
  | next pair =>
    rw [perform]
    exact hgate.value hQ (by simp) rfl (compiles_next hfits (hpushed (by simp) pair (by simp)))

theorem compiles (hgate : Passes M mode gate) (n : Node) : n.Compiles M mode gate :=
  n.compilesOn hgate fun _ _ => trivial

end Compiles

end Node

end ExprBackend
