import ExprBackend.Proofs.Assignment
import ExprBackend.Proofs.Correspondence

/-! # Evaluations that concur

Two evaluations that start in environments that are alike, each in a heap of its own,
concur if they come to values that are alike or to the same failure, and leave
environments that are alike. An operation on the values of all operands depends on
no more than what these values are like, so expressions whose operands concur do.
-/

namespace ExprBackend

variable {h : Heap} {k k' s t : Window} {v w : Value}

def Eval.ending {α : Type} (result : Except Failure α) : Eval α := fun σ => (result, σ)

namespace Window

/-- Names have values that are alike. -/
def LikeEnv (s t : Window) (env env' : Bindings) : Prop :=
  ∀ name, Option.Rel (Like s t) (env.get? name) (env'.get? name)

variable {env env' : Bindings}

theorem LikeEnv.keeps {s' t' : Window} (h : LikeEnv s t env env') (hs : s.Keeps s')
    (ht : t.Keeps t') : LikeEnv s' t' env env' := by
  intro name
  have hname := h name
  generalize env.get? name = v, env'.get? name = w at hname
  cases hname with
  | none => exact .none
  | some hlike => exact .some (hlike.keeps hs ht)

theorem LikeEnv.set (h : LikeEnv s t env env') (hlike : Like s t v w) (name : Text) :
    LikeEnv s t (env.set name v) (env'.set name w) := by
  intro other
  rw [Bindings.get?_set, Bindings.get?_set]
  split
  · exact .some hlike
  · exact h other

/-- Two evaluations come to outcomes that correspond, with environments that are alike. -/
inductive Concurs (s t : Window) {α β : Type} (R : Window → Window → α → β → Prop) :
    Except Failure α × EvalState → Except Failure β × EvalState → Prop
  | ok {a : α} {b : β} {σ τ : EvalState} {s' t' : Window} : s.Becomes σ.heap s' →
      t.Becomes τ.heap t' →
      LikeEnv s' t' σ.environment τ.environment → R s' t' a b → Concurs s t R (.ok a, σ) (.ok b, τ)
  | error (failure : Failure) {σ τ : EvalState} {s' t' : Window} : s.Becomes σ.heap s' →
      t.Becomes τ.heap t' → LikeEnv s' t' σ.environment τ.environment →
      Concurs s t R (.error failure, σ) (.error failure, τ)

/-- Two evaluations concur whenever they start in environments that are alike. -/
def Concur (s t : Window) {α β : Type} (R : Window → Window → α → β → Prop) (x : Eval α)
    (y : Eval β) : Prop :=
  ∀ env env', LikeEnv s t env env' → Concurs s t R (x ⟨s.heap, env⟩) (y ⟨t.heap, env'⟩)

section Concur

variable {α β γ δ : Type} {R : Window → Window → α → β → Prop} {Q : Window → Window → γ → δ → Prop}
  {b : β} {x : Eval α} {f : α → Eval γ}

theorem concur_pure {a : α} (h : R s t a b) : Concur s t R (pure a) (pure b) :=
  fun _ _ henv => .ok (.refl s) (.refl t) henv h

theorem concur_bind {y : Eval β} {g : β → Eval δ} (h : Concur s t R x y)
    (hfg : ∀ {s' t' : Window} {a : α} {b : β}, s.Keeps s' → t.Keeps t' → R s' t' a b →
      Concur s' t' Q (f a) (g b)) : Concur s t Q (x >>= f) (y >>= g) := by
  intro env env' henv
  have hxy := h env env' henv
  rw [bind_apply, bind_apply]
  generalize x ⟨s.heap, env⟩ = outcome, y ⟨t.heap, env'⟩ = outcome' at hxy
  cases hxy with
  | error failure hs ht henv' => exact .error failure hs ht henv'
  | @ok a b σ τ s' t' hs ht henv' hab =>
    have hrest := hfg hs.keeps ht.keeps hab σ.environment τ.environment henv'
    rw [hs.heap, ht.heap] at hrest
    dsimp only
    generalize f a σ = outcome, g b τ = outcome' at hrest
    cases hrest with
    | ok hs' ht' henv'' hcd => exact .ok (hs.trans hs') (ht.trans ht') henv'' hcd
    | error failure hs' ht' henv'' => exact .error failure (hs.trans hs') (ht.trans ht') henv''

/-- One side has its value at once, whatever the other does for it. -/
theorem concur_bind_left {y : Eval δ} (h : Concur s t R x (Eval.ending (.ok b)))
    (hf : ∀ {s' t' : Window} {a : α}, s.Keeps s' → t.Keeps t' → R s' t' a b →
      Concur s' t' Q (f a) y) : Concur s t Q (x >>= f) y := by
  change Concur s t Q (x >>= f) (Eval.ending (.ok b) >>= fun _ => y)
  have hvalue : Concur s t (fun s' t' a c => R s' t' a c ∧ c = b) x (Eval.ending (.ok b)) := by
    intro env env' henv
    have hx := h env env' henv
    change Concurs s t R _ (.ok b, ⟨t.heap, env'⟩) at hx
    change Concurs s t _ _ (.ok b, ⟨t.heap, env'⟩)
    generalize x ⟨s.heap, env⟩ = outcome at hx
    cases hx with
    | ok hs ht henv' hab => exact .ok hs ht henv' ⟨hab, rfl⟩
  refine concur_bind hvalue fun hs ht hab => ?_
  obtain ⟨hab, rfl⟩ := hab
  exact hf hs ht hab

theorem concur_bind_error {failure : Failure}
    (h : Concur s t R x (Eval.ending (.error failure) : Eval β)) :
    Concur s t Q (x >>= f) (Eval.ending (.error failure) : Eval δ) := by
  intro env env' henv
  have hx := h env env' henv
  change Concurs s t R _ (.error failure, ⟨t.heap, env'⟩) at hx
  change Concurs s t Q _ (.error failure, ⟨t.heap, env'⟩)
  rw [bind_apply]
  generalize x ⟨s.heap, env⟩ = outcome at hx
  cases hx with
  | error _ hs ht henv' => exact .error failure hs ht henv'

theorem concur_ofRun {x : Run α} {y : Run β} (h : Agree s t R x y) :
    Concur s t R (Eval.ofRun x) (Eval.ofRun y) := by
  intro env env' henv
  unfold Agree at h
  unfold Eval.ofRun
  dsimp only
  generalize x s.heap = outcome, y t.heap = outcome' at h
  cases h with
  | ok hs ht hab => exact .ok hs ht (henv.keeps hs.keeps ht.keeps) hab
  | error _ hs ht => exact .error _ hs ht (henv.keeps hs.keeps ht.keeps)

/-- Values that are alike are on the same side of a test. -/
theorem concur_truthy (h : Like s t v w) : Concur s t Equal (Eval.truthy v) (Eval.truthy w) :=
  fun _ _ henv => .ok (.refl s) (.refl t) henv h.truthy

theorem concur_name (name : Text) : Concur s t Like (Eval.name name) (Eval.name name) := by
  intro env env' henv
  have hname := henv name
  rw [Eval.name, bind_apply, bind_apply, get_apply, get_apply]
  dsimp only
  generalize env.get? name = v, env'.get? name = w at hname
  cases hname with
  | none => exact .error _ (.refl s) (.refl t) henv
  | some hlike => exact .ok (.refl s) (.refl t) henv hlike

end Concur

end Window

namespace Window

/-- All of a value is in sight. -/
def Whole (k : Window) (v : Value) : Prop := Like k k v v

theorem Becomes.unique (hs : k.Becomes h s) (ht : k.Becomes h t) : s = t := by
  obtain ⟨heap, hidden, hlt⟩ := s
  obtain ⟨heap', hidden', hlt'⟩ := t
  obtain ⟨rfl, rfl, -⟩ := hs
  obtain ⟨rfl, rfl, -⟩ := ht
  rfl

/-- What is in sight is kept, and all of the result is in sight. -/
inductive Carries (k : Window) : Except Failure Value × Heap → Prop
  | ok {u : Value} {k' : Window} : k.Becomes k'.heap k' → k'.Whole u → Carries k (.ok u, k'.heap)
  | error {failure : Failure} {k' : Window} : k.Becomes k'.heap k' → Raised failure →
      Carries k (.error failure, k'.heap)

theorem Carries.exists_becomes {outcome : Except Failure Value × Heap} (hc : k.Carries outcome) :
    ∃ k', k.Becomes outcome.2 k' := by
  cases hc with
  | ok hk _ => exact ⟨_, hk⟩
  | error hk _ => exact ⟨_, hk⟩

theorem Carries.after {outcome : Except Failure Value × Heap} (hk : k.Becomes k'.heap k')
    (hc : k'.Carries outcome) : k.Carries outcome := by
  cases hc with
  | ok hk' hwhole => exact .ok (hk.trans hk') hwhole
  | error hk' hraised => exact .error (hk.trans hk') hraised

theorem carries_of_agree {x : Run Value} (hx : Agree k k Like x x) : k.Carries (x k.heap) := by
  unfold Agree at hx
  generalize x k.heap = outcome at hx
  cases hx with
  | ok hs ht hlike =>
    obtain rfl := hs.unique ht
    obtain rfl := hs.heap
    exact .ok hs hlike
  | error hraised hs _ =>
    obtain rfl := hs.heap
    exact .error hs hraised

end Window

/-! ## Operations on all operands -/

/-- What is done with the values of all operands. -/
inductive Operation where
  | unary (op : UnaryOp)
  | binary (op : BinaryOp)
  | list
  | tuple
  | dict
  | index
  | bounds
  | slice

variable {op : Operation}

def Operation.run : Operation → List Value → Run Value
  | .unary op, [v] => Run.unary op v
  | .binary op, [a, b] => Run.binary op a b
  | .list, values => Run.newList values
  | .tuple, values => Run.newTuple values
  | .dict, values => Run.buildDict values
  | .index, [v, i] => Run.index v i
  | .bounds, [a, b, c] => Run.newSlice a b c
  | .slice, [v, a, b, c] => Run.slice v a b c
  | _, _ => Run.stop .stackUnderflow

theorem Operation.agree (op : Operation) {vs ws : List Value} (h : Window.LikeAll s t vs ws) :
    Window.Agree s t Window.Like (op.run vs) (op.run ws) := by
  cases op with
  | list => exact Window.agree_newList h
  | tuple => exact Window.agree_newTuple h
  | dict => exact Window.agree_buildDict h
  | unary op =>
    rcases h with _ | ⟨ha, _ | ⟨_, _⟩⟩
    · exact Window.agree_stop _
    · exact Window.agree_unary op ha
    · exact Window.agree_stop _
  | binary op =>
    rcases h with _ | ⟨ha, _ | ⟨hb, _ | ⟨_, _⟩⟩⟩
    · exact Window.agree_stop _
    · exact Window.agree_stop _
    · exact Window.agree_binary op ha hb
    · exact Window.agree_stop _
  | index =>
    rcases h with _ | ⟨ha, _ | ⟨hb, _ | ⟨_, _⟩⟩⟩
    · exact Window.agree_stop _
    · exact Window.agree_stop _
    · exact Window.agree_index ha hb
    · exact Window.agree_stop _
  | bounds =>
    rcases h with _ | ⟨ha, _ | ⟨hb, _ | ⟨hc, _ | ⟨_, _⟩⟩⟩⟩
    · exact Window.agree_stop _
    · exact Window.agree_stop _
    · exact Window.agree_stop _
    · exact Window.agree_newSlice ha hb hc
    · exact Window.agree_stop _
  | slice =>
    rcases h with _ | ⟨hv, _ | ⟨ha, _ | ⟨hb, _ | ⟨hc, _ | ⟨_, _⟩⟩⟩⟩⟩
    · exact Window.agree_stop _
    · exact Window.agree_stop _
    · exact Window.agree_stop _
    · exact Window.agree_stop _
    · exact Window.agree_slice hv ha hb hc
    · exact Window.agree_stop _

namespace Node

open Window

variable {call : Caller} {m n : Node} {ms ns : List Node}

def absent : Node := .const .none []

/-- What an expression does with the values of all its operands, if that is what it does. -/
def strict? : Node → Option (Operation × List Node)
  | .unary op operand => some (.unary op, [operand])
  | .binary op left right => some (.binary op, [left, right])
  | .collection .list elements => some (.list, elements)
  | .collection .tuple elements => some (.tuple, elements)
  | .collection .dict elements => some (.dict, elements)
  | .subscript base index => some (.index, [base, index])
  | .sliceObj start stop step => some (.bounds, [start, stop, step].map (·.getD absent))
  | .slice base start stop step => some (.slice, base :: [start, stop, step].map (·.getD absent))
  | _ => none

theorem evalBound_eq (call : Caller) (bound : Option Node) :
    evalBound call bound = (bound.getD absent).eval call := by
  cases bound <;> rfl

theorem eval_of_strict (hm : m.strict? = some (op, ms)) :
    m.eval call = evalAll call ms >>= fun values => Eval.ofRun (op.run values) := by
  unfold strict? at hm
  split at hm <;> cases hm
  all_goals simp [eval, evalAll, Operation.run, evalBound_eq]

/-- In all heaps that keep what is in sight, two expressions evaluate alike. -/
structure Means (call : Caller) (k : Window) (m n : Node) : Prop where
  concur : ∀ {s t : Window}, k.Keeps s → k.Keeps t → Concur s t Like (m.eval call) (n.eval call)

theorem Means.keeps (hmn : Means call k m n) (hkeeps : k.Keeps k') : Means call k' m n :=
  ⟨fun hs ht => hmn.concur (hkeeps.trans hs) (hkeeps.trans ht)⟩

theorem concur_evalAll (hall : List.Forall₂ (Means call k) ms ns) (hs : k.Keeps s)
    (ht : k.Keeps t) : Concur s t LikeAll (evalAll call ms) (evalAll call ns) := by
  induction hall generalizing s t with
  | nil => exact concur_pure .nil
  | cons hfirst _ ih =>
    refine concur_bind (hfirst.concur hs ht) fun hs' ht' hv => ?_
    refine concur_bind (ih (hs.trans hs') (ht.trans ht')) fun hs'' ht'' hvs => ?_
    exact concur_pure (.cons (hv.keeps hs'' ht'') hvs)

/-- Expressions that do the same with operands that mean the same mean the same. -/
theorem means_of_strict (hm : m.strict? = some (op, ms)) (hn : n.strict? = some (op, ns))
    (hall : List.Forall₂ (Means call k) ms ns) : Means call k m n where
  concur hs ht := by
    rw [eval_of_strict hm, eval_of_strict hn]
    exact concur_bind (concur_evalAll hall hs ht) fun _ _ hvs => concur_ofRun (op.agree hvs)

end Node

end ExprBackend
