import ExprBackend.Proofs.Attempt

/-! # Definite assignment

Code settles whether a name is local in the order in which it is emitted, an
evaluation looks the name up when it gets there. The two agree on a name that no
assignment has touched, and on one that has surely been given a value. A sight
keeps account of both; an expression settles in a sight if it reads no other names.
What the code of such an expression performs is its evaluation.
-/

namespace ExprBackend

open List

variable {ctx : Context} {globals : Bindings} {n : Node} {ns : List Node}

namespace Bindings

theorem get?_set (b : Bindings) (name other : Text) (v : Value) :
    (b.set name v).get? other = if other = name then some v else b.get? other :=
  lookup_setEntry name other v b.entries

end Bindings

/-! ## Names that are settled -/

namespace Node

mutual

/-- The names that have been given a value whenever the expression has one. -/
def certain : Node → List Text
  | .const _ _ | .var _ => []
  | .unary _ operand => certain operand
  | .binary _ left right => certain left ++ certain right
  | .compare subject links => certain subject ++ certainLink links
  | .logical _ operands => certainFirst operands
  -- Only one of the alternatives is taken.
  | .cond test yes no => certain test ++ (certain yes).filter ((certain no).contains ·)
  | .collection _ elements => certainAll elements
  | .subscript base index => certain base ++ certain index
  | .sliceObj start stop step => certainBound start ++ certainBound stop ++ certainBound step
  | .slice base start stop step =>
    certain base ++ certainBound start ++ certainBound stop ++ certainBound step
  | .attr base _ => certain base
  | .call callee args star keywords doubleStar _ =>
    certain callee ++ certainAll args ++ certainBound star ++ certainValues keywords ++
      certainBound doubleStar
  | .store name value => name :: certain value
  | .sequence steps => certainAll steps
  | .next pair => certain pair

def certainAll : List Node → List Text
  | [] => []
  | n :: rest => certain n ++ certainAll rest

def certainFirst : List Node → List Text
  | [] => []
  | n :: _ => certain n

def certainLink : List (CompareOp × Node) → List Text
  | [] => []
  | (_, n) :: _ => certain n

def certainBound : Option Node → List Text
  | none => []
  | some n => certain n

def certainValues : List (Text × Node) → List Text
  | [] => []
  | (_, n) :: rest => certain n ++ certainValues rest

end

end Node

/-- What is known of the assignments before a place. -/
structure Sight where
  touched : List Text
  /-- The names that have surely been given a value. -/
  sure : List Text

variable {sight : Sight}

namespace Sight

/-- What is known after an expression. -/
def after (sight : Sight) (n : Node) : Sight :=
  ⟨sight.touched ++ n.assigned, sight.sure ++ n.certain⟩

/-- What is known after code that has been emitted and is not run. -/
def beside (sight : Sight) (n : Node) : Sight :=
  { sight with touched := sight.touched ++ n.assigned }

def afterAll (sight : Sight) (ns : List Node) : Sight :=
  ⟨sight.touched ++ ns.flatMap Node.assigned, sight.sure ++ Node.certainAll ns⟩

def afterBound (sight : Sight) : Option Node → Sight
  | none => sight
  | some n => sight.after n

/-- A name that can be read: if it has been touched it has surely been given a value. -/
def reads (sight : Sight) (name : Text) : Bool :=
  !sight.touched.contains name || sight.sure.contains name

end Sight

namespace Node

mutual

/-- Whether an expression reads only names that are settled. -/
def settles : Sight → Node → Bool
  | _, .const _ _ => true
  | sight, .var name => sight.reads name
  | sight, .unary _ operand => settles sight operand
  | sight, .binary _ left right => settles sight left && settles (sight.after left) right
  | sight, .compare subject links =>
    settles sight subject && settlesLinks (sight.after subject) links
  | sight, .logical _ operands => settlesAll sight operands
  | sight, .cond test yes no =>
    settles sight test && settles (sight.after test) yes &&
      settles ((sight.after test).beside yes) no
  | sight, .collection _ elements => settlesAll sight elements
  | sight, .subscript base index => settles sight base && settles (sight.after base) index
  | sight, .sliceObj start stop step =>
    settlesBound sight start && settlesBound (sight.afterBound start) stop &&
      settlesBound ((sight.afterBound start).afterBound stop) step
  | sight, .slice base start stop step =>
    settles sight base && settlesBound (sight.after base) start &&
      settlesBound ((sight.after base).afterBound start) stop &&
        settlesBound (((sight.after base).afterBound start).afterBound stop) step
  | sight, .attr base _ => settles sight base
  | sight, .call callee args star keywords doubleStar _ =>
    settles sight callee && settlesAll (sight.after callee) args &&
      settlesBound ((sight.after callee).afterAll args) star &&
      settlesValues (((sight.after callee).afterAll args).afterBound star) keywords &&
      settlesBound ((((sight.after callee).afterAll args).afterBound star).afterAll
        (keywords.map Prod.snd)) doubleStar
  | sight, .store _ value => settles sight value
  | sight, .sequence steps => settlesAll sight steps
  | sight, .next pair => settles sight pair

def settlesAll : Sight → List Node → Bool
  | _, [] => true
  | sight, n :: rest => settles sight n && settlesAll (sight.after n) rest

def settlesLinks : Sight → List (CompareOp × Node) → Bool
  | _, [] => true
  | sight, (_, n) :: rest => settles sight n && settlesLinks (sight.after n) rest

def settlesBound : Sight → Option Node → Bool
  | _, none => true
  | sight, some n => settles sight n

def settlesValues : Sight → List (Text × Node) → Bool
  | _, [] => true
  | sight, (_, n) :: rest => settles sight n && settlesValues (sight.after n) rest

end

section Certain

theorem append_subset_append {first rest first' rest' : List Text} (h : first ⊆ first')
    (h' : rest ⊆ rest') : first ++ rest ⊆ first' ++ rest' :=
  append_subset.mpr ⟨subset_append_of_subset_left _ h, subset_append_of_subset_right _ h'⟩

theorem certainAll_append (ns ms : List Node) :
    certainAll (ns ++ ms) = certainAll ns ++ certainAll ms := by
  induction ns with
  | nil => rfl
  | cons n rest ih => simp [certainAll, ih]

theorem certainBound_eq (bound : Option Node) : certainBound bound = certainAll bound.toList := by
  cases bound <;> simp [certainBound, certainAll]

theorem certainValues_eq (keywords : List (Text × Node)) :
    certainValues keywords = certainAll (keywords.map Prod.snd) := by
  induction keywords with
  | nil => rfl
  | cons keyword rest ih => rw [certainValues, map_cons, certainAll, ih]

/-- An expression that has a value only if all of its operands do, and that neither reads nor
assigns a name itself. -/
def Strict : Node → Prop
  | .var _ | .compare _ _ | .logical _ _ | .cond _ _ _ | .store _ _ => False
  | _ => True

theorem Strict.ne_store (h : n.Strict) (name : Text) (value : Node) : n ≠ .store name value := by
  rintro rfl
  exact h

theorem Strict.certain_eq (h : n.Strict) : n.certain = certainAll n.children := by
  cases n <;> first
    | exact h.elim
    | simp [certain, certainAll, certainAll_append, certainBound_eq, certainValues_eq]

theorem certainAll_subset (h : ∀ m ∈ ns, m.certain ⊆ m.assigned) :
    certainAll ns ⊆ ns.flatMap assigned := by
  induction ns with
  | nil => exact Subset.refl _
  | cons n rest ih =>
    rw [forall_mem_cons] at h
    rw [certainAll, flatMap_cons]
    exact append_subset_append h.1 (ih h.2)

/-- Names that have surely been given a value are among those that are assigned. -/
theorem certain_subset (n : Node) : n.certain ⊆ n.assigned := by
  induction n using descent with
  | h n ih _ =>
  by_cases hstrict : n.Strict
  · rw [hstrict.certain_eq, assigned_eq hstrict.ne_store]
    exact certainAll_subset ih
  cases n with
  | var _ =>
    rw [certain]
    exact nil_subset _
  | store name value =>
    rw [certain, assigned_store]
    exact cons_subset_cons name (ih value (by simp))
  | logical junction operands =>
    rw [certain, assigned_eq (by simp), children]
    cases operands with
    | nil => exact Subset.refl _
    | cons n rest =>
      rw [certainFirst, flatMap_cons]
      exact subset_append_of_subset_left _ (ih n (by simp))
  | compare subject links =>
    rw [certain, assigned_eq (by simp), children, flatMap_cons]
    refine append_subset_append (ih subject (by simp)) ?_
    cases links with
    | nil => exact nil_subset _
    | cons link rest =>
      rw [certainLink, map_cons, flatMap_cons]
      exact subset_append_of_subset_left _ (ih link.2 (by simp))
  | cond test yes no =>
    rw [certain, assigned_eq (by simp), children, flatMap_cons, flatMap_cons]
    exact append_subset_append (ih test (by simp))
      (subset_append_of_subset_left _
        (Subset.trans (filter_subset_self _) (ih yes (by simp))))
  | _ => exact absurd trivial hstrict

end Certain

end Node

namespace Sight

@[simp] theorem afterAll_nil (sight : Sight) : sight.afterAll [] = sight := by
  simp [afterAll, Node.certainAll]

@[simp] theorem afterAll_cons (sight : Sight) (n : Node) (rest : List Node) :
    sight.afterAll (n :: rest) = (sight.after n).afterAll rest := by
  simp [afterAll, after, Node.certainAll]

theorem afterAll_append (sight : Sight) (ns ms : List Node) :
    sight.afterAll (ns ++ ms) = (sight.afterAll ns).afterAll ms := by
  simp [afterAll, Node.certainAll_append]

theorem afterBound_eq (sight : Sight) (bound : Option Node) :
    sight.afterBound bound = sight.afterAll bound.toList := by
  cases bound <;> simp [afterBound]

theorem after_eq (h : n.Strict) (sight : Sight) : sight.after n = sight.afterAll n.children := by
  rw [after, afterAll, h.certain_eq, Node.assigned_eq h.ne_store]

end Sight

namespace Node

theorem settlesAll_append (sight : Sight) (ns ms : List Node) :
    settlesAll sight (ns ++ ms) = (settlesAll sight ns && settlesAll (sight.afterAll ns) ms) := by
  induction ns generalizing sight with
  | nil => simp [settlesAll]
  | cons n rest ih => simp [settlesAll, ih, Bool.and_assoc]

theorem settlesLinks_eq (sight : Sight) (links : List (CompareOp × Node)) :
    settlesLinks sight links = settlesAll sight (links.map Prod.snd) := by
  induction links generalizing sight with
  | nil => rfl
  | cons link rest ih => rw [settlesLinks, map_cons, settlesAll, ih]

theorem settlesValues_eq (sight : Sight) (keywords : List (Text × Node)) :
    settlesValues sight keywords = settlesAll sight (keywords.map Prod.snd) := by
  induction keywords generalizing sight with
  | nil => rfl
  | cons keyword rest ih => rw [settlesValues, map_cons, settlesAll, ih]

theorem settlesBound_eq (sight : Sight) (bound : Option Node) :
    settlesBound sight bound = settlesAll sight bound.toList := by
  cases bound <;> simp [settlesBound, settlesAll]

/-- Apart from a choice, of which one alternative does not see the other, an expression settles
operand by operand. -/
theorem settles_eq (hvar : ∀ name, n ≠ .var name) (hcond : ∀ test yes no, n ≠ .cond test yes no)
    (sight : Sight) : n.settles sight = settlesAll sight n.children := by
  cases n with
  | var name => exact absurd rfl (hvar name)
  | cond test yes no => exact absurd rfl (hcond test yes no)
  | _ =>
    simp [settles, settlesAll, settlesAll_append, settlesLinks_eq, settlesValues_eq,
      settlesBound_eq, Sight.afterBound_eq, Bool.and_assoc]

theorem Strict.settles_eq (h : n.Strict) (sight : Sight) :
    n.settles sight = settlesAll sight n.children := by
  refine Node.settles_eq ?_ ?_ sight
  · rintro name rfl
    exact h
  · rintro test yes no rfl
    exact h

end Node

/-! ## Scenes and environments in sight of each other -/

namespace Sight

/-- The names in scope lie between those that are sure and those that are touched. -/
structure Bounds (sight : Sight) (ctx : Context) : Prop where
  sure : sight.sure ⊆ ctx.scope
  touched : ctx.scope ⊆ sight.touched

theorem Bounds.after (h : sight.Bounds ctx) (n : Node) : (sight.after n).Bounds (ctx.after n) :=
  ⟨Node.append_subset_append h.sure n.certain_subset,
    Node.append_subset_append h.touched (Subset.refl _)⟩

theorem Bounds.beside (h : sight.Bounds ctx) (n : Node) : (sight.beside n).Bounds (ctx.after n) :=
  ⟨subset_append_of_subset_left _ h.sure,
    Node.append_subset_append h.touched (Subset.refl _)⟩

theorem Bounds.afterAll (h : sight.Bounds ctx) (ns : List Node) :
    (sight.afterAll ns).Bounds (ctx.afterAll ns) := by
  induction ns generalizing sight ctx with
  | nil =>
    rw [afterAll_nil]
    exact h
  | cons n rest ih =>
    rw [afterAll_cons]
    exact ih (h.after n)

/-- The second sight is one from a later place. -/
structure Extends (sight later : Sight) : Prop where
  touched : sight.touched ⊆ later.touched
  sure : sight.sure ⊆ later.sure

theorem Extends.refl (sight : Sight) : sight.Extends sight :=
  ⟨Subset.refl _, Subset.refl _⟩

theorem Extends.trans {first second third : Sight} (h : first.Extends second)
    (h' : second.Extends third) : first.Extends third :=
  ⟨Subset.trans h.touched h'.touched, Subset.trans h.sure h'.sure⟩

theorem extends_after (sight : Sight) (n : Node) : sight.Extends (sight.after n) :=
  ⟨subset_append_left _ _, subset_append_left _ _⟩

theorem extends_afterAll (sight : Sight) (ns : List Node) : sight.Extends (sight.afterAll ns) :=
  ⟨subset_append_left _ _, subset_append_left _ _⟩

end Sight

/-- The locals of a scene and an environment agree as far as a sight knows. -/
structure Scene.Agrees (globals : Bindings) (sight : Sight) (s : Scene) (e : EvalState) : Prop where
  heap : e.heap = s.heap
  sure : ∀ name ∈ sight.sure, e.environment.get? name = some (s.locals name)
  untouched : ∀ name, name ∉ sight.touched → e.environment.get? name = globals.get? name

theorem Scene.Agrees.weaken {sight' : Sight} {s : Scene} {e : EvalState}
    (h : s.Agrees globals sight e) (htouched : sight.touched ⊆ sight'.touched)
    (hsure : sight'.sure ⊆ sight.sure) : s.Agrees globals sight' e :=
  ⟨h.heap, fun name hname => h.sure name (hsure hname),
    fun name hname => h.untouched name fun hmem => hname (htouched hmem)⟩

/-- What has been performed and what has been evaluated have ended alike. After a transfer only
that is sure which was so before. -/
inductive Alike {α : Type} (globals : Bindings) (sight sight' : Sight) :
    Except Exit α × Scene → Except Exit α × EvalState → Prop where
  | value {a : α} {s : Scene} {e : EvalState} : s.Agrees globals sight' e →
      Alike globals sight sight' (.ok a, s) (.ok a, e)
  | failure {f : Failure} {s : Scene} {e : EvalState} : e.heap = s.heap →
      Alike globals sight sight' (.error (.failure f), s) (.error (.failure f), e)
  | transfer {pair : Value} {s : Scene} {e : EvalState} :
      s.Agrees globals ⟨sight'.touched, sight.sure⟩ e →
      Alike globals sight sight' (.error (.transfer pair), s) (.error (.transfer pair), e)

/-- What is performed is what is evaluated, from one sight to another. -/
def Perform.Tracks {α : Type} (globals : Bindings) (sight sight' : Sight) (p : Perform α)
    (q : Attempt α) : Prop :=
  ∀ s e, s.Agrees globals sight e → Alike globals sight sight' (p s) (q e)

namespace Perform

/-- What is performed is what is evaluated, from one sight to a later one. -/
structure Leads {α : Type} (globals : Bindings) (sight sight' : Sight) (p : Perform α)
    (q : Attempt α) : Prop where
  later : sight.Extends sight'
  tracks : Tracks globals sight sight' p q

variable {α β : Type} {sight1 sight2 : Sight} {p : Perform α} {q : Attempt α} {name : Text}

theorem leads_pure (a : α) : Leads globals sight sight (pure a) (pure a) :=
  ⟨.refl _, fun _ _ h => .value h⟩

theorem Leads.bind [Inhabited α] {f : α → Perform β} {g : α → Attempt β}
    (h : Leads globals sight sight1 p q) (hf : ∀ a, Leads globals sight1 sight2 (f a) (g a)) :
    Leads globals sight sight2 (p >>= f) (q >>= g) := by
  have hlater := (hf default).later
  refine ⟨h.later.trans hlater, fun s e hagrees => ?_⟩
  have halike := h.tracks s e hagrees
  rw [bind_apply, bind_apply]
  generalize p s = x at halike
  generalize q e = y at halike
  cases halike with
  | @value a s1 e1 hagrees1 =>
    have halike2 := (hf a).tracks s1 e1 hagrees1
    simp only
    generalize f a s1 = x at halike2 ⊢
    generalize g a e1 = y at halike2 ⊢
    cases halike2 with
    | value hagrees2 => exact .value hagrees2
    | failure hheap => exact .failure hheap
    | transfer hagrees2 => exact .transfer (hagrees2.weaken (Subset.refl _) h.later.sure)
  | failure hheap => exact .failure hheap
  | transfer hagrees1 => exact .transfer (hagrees1.weaken hlater.touched (Subset.refl _))

/-- Less may be made of what is known in the end. -/
theorem Leads.weaken (h : Leads globals sight sight1 p q) (hlater : sight.Extends sight2)
    (htouched : sight1.touched ⊆ sight2.touched) (hsure : sight2.sure ⊆ sight1.sure) :
    Leads globals sight sight2 p q := by
  refine ⟨hlater, fun s e hagrees => ?_⟩
  have halike := h.tracks s e hagrees
  generalize p s = x at halike
  generalize q e = y at halike
  cases halike with
  | value hagrees1 => exact .value (hagrees1.weaken htouched hsure)
  | failure hheap => exact .failure hheap
  | transfer hagrees1 => exact .transfer (hagrees1.weaken htouched (Subset.refl _))

/-- Code that is not run changes only what is known to have been touched. -/
theorem Leads.beside (h : Leads globals (sight.beside n) sight1 p q) :
    Leads globals sight sight1 p q := by
  refine ⟨⟨Subset.trans (subset_append_left _ _) h.later.touched, h.later.sure⟩,
    fun s e hagrees => ?_⟩
  have halike := h.tracks s e (hagrees.weaken (subset_append_left _ _) (Subset.refl _))
  generalize p s = x at halike
  generalize q e = y at halike
  cases halike with
  | value hagrees1 => exact .value hagrees1
  | failure hheap => exact .failure hheap
  | transfer hagrees1 => exact .transfer hagrees1

theorem leads_ofRun (action : Run α) :
    Leads globals sight sight (ofRun action) (Attempt.ofRun action) := by
  refine ⟨.refl _, fun s e hagrees => ?_⟩
  rw [ofRun, Attempt.ofRun, Attempt.ofEval, Eval.ofRun, hagrees.heap]
  rcases action s.heap with ⟨_ | a, heap⟩
  · exact .failure rfl
  · exact .value ⟨rfl, hagrees.sure, hagrees.untouched⟩

theorem leads_truthy (v : Value) :
    Leads globals sight sight (ofRun (Run.truthy v)) (Attempt.truthy v) :=
  leads_ofRun (Run.truthy v)

theorem leads_ite {b : Bool} {p' : Perform α} {q' : Attempt α} (h : Leads globals sight sight1 p q)
    (h' : Leads globals sight sight1 p' q') :
    Leads globals sight sight1 (if b then p else p') (if b then q else q') := by
  cases b <;> assumption

/-- A transfer keeps what was sure before. -/
theorem leads_transfer (v : Value) :
    Leads globals sight sight (throw (.transfer v) : Perform α) (throw (.transfer v) : Attempt α) :=
  ⟨.refl _, fun _ _ hagrees => .transfer hagrees⟩

/-- A name that is settled is read alike, be it local or global. -/
theorem leads_name (hbounds : sight.Bounds ctx) (hreads : sight.reads name = true) :
    Leads globals sight sight (Perform.name globals ctx name)
      (Attempt.ofEval (Eval.name name)) := by
  have hsettled : name ∈ sight.touched → name ∈ sight.sure := by
    intro hmem
    simpa [Sight.reads, hmem] using hreads
  refine ⟨.refl _, fun s e hagrees => ?_⟩
  rw [Perform.name, Attempt.ofEval, Eval.name, bind_apply, get_apply]
  by_cases hname : name ∈ ctx.scope
  · simp only [hname, if_true, hagrees.sure name (hsettled (hbounds.touched hname))]
    exact .value hagrees
  · have htouched : name ∉ sight.touched := fun hmem => hname (hbounds.sure (hsettled hmem))
    simp only [hname, if_false, hagrees.untouched name htouched]
    cases globals.get? name with
    | none => exact .failure hagrees.heap
    | some v => exact .value hagrees

theorem leads_assign (v : Value) (hlater : sight.Extends sight1) (htouched : name ∈ sight1.touched)
    (hsure : sight1.sure ⊆ name :: sight.sure) :
    Leads globals sight sight1 (assign name v) (Attempt.assign name v) := by
  refine ⟨hlater, fun s e hagrees => ?_⟩
  refine .value ⟨hagrees.heap, fun other hother => ?_, fun other hother => ?_⟩
  · rw [Bindings.get?_set]
    by_cases heq : other = name
    · simp [heq]
    · simp only [heq, if_false]
      exact hagrees.sure other ((mem_cons.mp (hsure hother)).resolve_left heq)
  · have hne : other ≠ name := fun heq => hother (heq ▸ htouched)
    rw [Bindings.get?_set, if_neg hne]
    exact hagrees.untouched other fun hmem => hother (hlater.touched hmem)

end Perform

/-! ## Expressions -/

namespace Node

/-- The forms of expression whose code does what their evaluation does: to take a part of a sequence
code makes a slice value, and arguments that are spread it gathers in another order. -/
def Regular : Node → Prop
  | .slice _ _ _ _ => False
  | .call _ _ star keywords doubleStar _ => star = none ∧ keywords = [] ∧ doubleStar = none
  | _ => True

instance : DecidablePred Regular
  | .slice _ _ _ _ => .isFalse id
  | .call _ _ star keywords doubleStar _ =>
    inferInstanceAs (Decidable (star = none ∧ keywords = [] ∧ doubleStar = none))
  | .const _ _ | .var _ | .unary _ _ | .binary _ _ _ | .compare _ _ | .logical _ _ | .cond _ _ _
  | .collection _ _ | .subscript _ _ | .sliceObj _ _ _ | .attr _ _ | .store _ _
  | .sequence _ | .next _ => .isTrue trivial

/-- What the code of an expression performs is its evaluation, in every sight in which it settles.
-/
def Tracked (manner : Manner) (call : Caller) (globals : Bindings) (n : Node) : Prop :=
  ∀ (ctx : Context) (sight : Sight), sight.Bounds ctx → n.settles sight = true →
    Perform.Tracks globals sight (sight.after n) (n.perform call globals Gate.opened ctx)
      (n.attempt manner call)

section Tracked

variable {manner : Manner} {call : Caller} {a : Node} {bound : Option Node}
  {keywords : List (Text × Node)}

open Perform

theorem Tracked.leads (h : n.Tracked manner call globals) (hbounds : sight.Bounds ctx)
    (hsettles : n.settles sight = true) :
    Leads globals sight (sight.after n) (n.perform call globals Gate.opened ctx)
      (n.attempt manner call) :=
  ⟨sight.extends_after n, h ctx sight hbounds hsettles⟩

theorem tracked_of_leads (hstrict : n.Strict)
    (h : ∀ ctx sight, sight.Bounds ctx → settlesAll sight n.children = true →
      Leads globals sight (sight.afterAll n.children) (n.perform call globals Gate.opened ctx)
        (n.attempt manner call)) : n.Tracked manner call globals := by
  intro ctx sight hbounds hsettles
  rw [Sight.after_eq hstrict]
  exact (h ctx sight hbounds (hstrict.settles_eq sight ▸ hsettles)).tracks

theorem leads_all (h : ∀ m ∈ ns, m.Tracked manner call globals) (hbounds : sight.Bounds ctx)
    (hsettles : settlesAll sight ns = true) :
    Leads globals sight (sight.afterAll ns) (performAll call globals Gate.opened ns ctx)
      (attemptAll manner call ns) := by
  induction ns generalizing ctx sight with
  | nil =>
    rw [Sight.afterAll_nil]
    exact leads_pure []
  | cons n rest ih =>
    rw [forall_mem_cons] at h
    rw [settlesAll, Bool.and_eq_true] at hsettles
    rw [performAll, attemptAll, Sight.afterAll_cons]
    exact (h.1.leads hbounds hsettles.1).bind fun v =>
      (ih h.2 (hbounds.after n) hsettles.2).bind fun vs => leads_pure (v :: vs)

theorem leads_bound (h : ∀ m ∈ bound.toList, m.Tracked manner call globals)
    (hbounds : sight.Bounds ctx) (hsettles : settlesAll sight bound.toList = true) :
    Leads globals sight (sight.afterAll bound.toList)
      (performBound call globals Gate.opened bound ctx) (attemptBound manner call bound) := by
  cases bound with
  | none =>
    rw [Option.toList_none, Sight.afterAll_nil]
    exact leads_pure Value.none
  | some n =>
    rw [← settlesBound_eq, settlesBound] at hsettles
    rw [performBound, attemptBound, ← Sight.afterBound_eq]
    exact (h n (by simp)).leads hbounds hsettles

/-- The bounds of a slice one after another. -/
theorem leads_bounds {start stop step : Option Node} {f : Value → Value → Value → Perform Value}
    {g : Value → Value → Value → Attempt Value}
    (h : ∀ m ∈ present [start, stop, step], m.Tracked manner call globals)
    (hbounds : sight.Bounds ctx) (hsettles : settlesAll sight (present [start, stop, step]) = true)
    (hfg : ∀ a b c sight, Leads globals sight sight (f a b c) (g a b c)) :
    Leads globals sight (sight.afterAll (present [start, stop, step])) (do
        let a ← performBound call globals Gate.opened start ctx
        let b ← performBound call globals Gate.opened stop (ctx.afterAll start.toList)
        let c ← performBound call globals Gate.opened step
          ((ctx.afterAll start.toList).afterAll stop.toList)
        f a b c) (do
        let a ← attemptBound manner call start
        let b ← attemptBound manner call stop
        let c ← attemptBound manner call step
        g a b c) := by
  simp only [present_cons, present_nil, append_nil, forall_mem_append, settlesAll_append,
    Sight.afterAll_append, Bool.and_eq_true] at h hsettles ⊢
  have hbounds1 := hbounds.afterAll start.toList
  exact (leads_bound h.1 hbounds hsettles.1).bind fun a =>
    (leads_bound h.2.1 hbounds1 hsettles.2.1).bind fun b =>
      (leads_bound h.2.2 (hbounds1.afterAll stop.toList) hsettles.2.2).bind fun c => hfg a b c _

/-- A chain of comparisons. Only its first operand is sure to be computed. -/
theorem leads_links {links : List (CompareOp × Node)} (hne : links ≠ [])
    (h : ∀ m ∈ links.map Prod.snd, m.Tracked manner call globals) (hbounds : sight.Bounds ctx)
    (hsettles : settlesAll sight (links.map Prod.snd) = true) (result left : Value) :
    Leads globals sight ⟨sight.touched ++ (links.map Prod.snd).flatMap assigned,
        sight.sure ++ certainLink links⟩
      (performLinks call globals Gate.opened left links ctx)
      (attemptLinks manner call result left links) := by
  induction links generalizing ctx sight result left with
  | nil => exact absurd rfl hne
  | cons link rest ih =>
    obtain ⟨op, n⟩ := link
    rw [map_cons, forall_mem_cons] at h
    rw [map_cons, settlesAll, Bool.and_eq_true] at hsettles
    have hn := h.1.leads hbounds hsettles.1
    rw [map_cons, flatMap_cons, certainLink]
    have hlater : (sight.after n).Extends ⟨sight.touched ++ (n.assigned ++
        (rest.map Prod.snd).flatMap assigned), sight.sure ++ n.certain⟩ :=
      ⟨by simp [Sight.after, ← append_assoc], Subset.refl _⟩
    cases rest with
    | nil =>
      rw [performLinks, attemptLinks]
      refine hn.bind fun right => ?_
      rw [← bind_pure (Perform.ofRun (Run.compare op left right))]
      refine (leads_ofRun _).bind fun value => ⟨hlater, fun s e hagrees => ?_⟩
      have hweak := hagrees.weaken hlater.touched (Subset.refl _)
      change Alike globals _ _ (.ok value, s) ((if e.heap.truthy value then
        attemptLinks manner call value right [] else pure value) e)
      split <;> exact .value hweak
    | cons link rest =>
      rw [performLinks_cons, attemptLinks]
      refine hn.bind fun right => (leads_ofRun _).bind fun value =>
        (leads_truthy value).bind fun truth =>
        leads_ite ((ih (by simp) h.2 (hbounds.after n) hsettles.2 value right).weaken hlater ?_ ?_)
          ((leads_pure value).weaken hlater hlater.touched (Subset.refl _))
      · simp [Sight.after]
      · exact subset_append_left _ _

theorem leads_operands {junction : Junction} (h : ∀ m ∈ ns, m.Tracked manner call globals)
    (hbounds : sight.Bounds ctx) (hsettles : settlesAll sight ns = true) :
    Leads globals sight ⟨sight.touched ++ ns.flatMap assigned, sight.sure ++ certainFirst ns⟩
      (performOperands call globals Gate.opened junction ns ctx)
      (attemptOperands manner call junction ns) := by
  induction ns generalizing ctx sight with
  | nil => simpa [certainFirst, performOperands, attemptOperands] using leads_pure Value.none
  | cons n rest ih =>
    rw [forall_mem_cons] at h
    rw [settlesAll, Bool.and_eq_true] at hsettles
    have hn := h.1.leads hbounds hsettles.1
    rw [flatMap_cons, certainFirst]
    have hlater : (sight.after n).Extends ⟨sight.touched ++ (n.assigned ++ rest.flatMap assigned),
        sight.sure ++ n.certain⟩ :=
      ⟨by simp [Sight.after, ← append_assoc], Subset.refl _⟩
    cases rest with
    | nil =>
      rw [performOperands, attemptOperands]
      exact hn.weaken (hn.later.trans hlater) hlater.touched (Subset.refl _)
    | cons m rest =>
      rw [performOperands_cons, attemptOperands]
      · refine hn.bind fun v => (leads_truthy v).bind fun truth => leads_ite
          ((leads_pure v).weaken hlater hlater.touched (Subset.refl _))
          ((ih h.2 (hbounds.after n) hsettles.2).weaken hlater ?_ ?_)
        · simp [Sight.after]
        · exact subset_append_left _ _
      · simp

theorem leads_steps (h : ∀ m ∈ ns, m.Tracked manner call globals) (hbounds : sight.Bounds ctx)
    (hsettles : settlesAll sight ns = true) :
    Leads globals sight (sight.afterAll ns) (performSteps call globals Gate.opened ns ctx)
      (attemptSteps manner call ns) := by
  induction ns generalizing ctx sight with
  | nil =>
    rw [Sight.afterAll_nil]
    exact leads_pure Value.none
  | cons n rest ih =>
    rw [forall_mem_cons] at h
    rw [settlesAll, Bool.and_eq_true] at hsettles
    have hn := h.1.leads hbounds hsettles.1
    rw [Sight.afterAll_cons]
    cases rest with
    | nil =>
      rw [performSteps, attemptSteps, Sight.afterAll_nil]
      exact hn
    | cons m rest =>
      rw [performSteps_cons, attemptSteps]
      · exact hn.bind fun _ => ih h.2 (hbounds.after n) hsettles.2
      · simp

/-- The receiver that is found with a method is passed on as the first argument. -/
theorem withReceiver_eq {v : Value} (hv : v ≠ .noReceiver) (bound : Bool) (args : List Value) :
    Machine.withReceiver (if bound then v else .noReceiver) args =
      (if bound then [v] else []) ++ args := by
  cases bound <;> simp [Machine.withReceiver, hv]

/-- An argument that is spread is put together with the others. -/
theorem leads_spread (combine : Value → Run Unit) {p : Perform Unit}
    (hp : p = bound.elim (pure ()) fun n => do
      let v ← n.perform call globals Gate.opened ctx
      ofRun (combine v)) (h : ∀ m ∈ bound.toList, m.Tracked manner call globals)
    (hbounds : sight.Bounds ctx) (hsettles : settlesAll sight bound.toList = true) :
    Leads globals sight (sight.afterAll bound.toList) p (do
      let v ← attemptBound manner call bound
      Attempt.ofRun (if bound.isSome then combine v else pure ())) := by
  rw [hp]
  cases bound with
  | none => exact (leads_bound h hbounds hsettles).bind fun _ => leads_ofRun (pure ())
  | some n => exact (leads_bound h hbounds hsettles).bind fun _ => leads_ofRun _

/-- Keywords are pairs for the evaluation, and names and values in turn for the code. -/
theorem leads_keywords (h : ∀ m ∈ keywords.map Prod.snd, m.Tracked manner call globals)
    (hbounds : sight.Bounds ctx) (hsettles : settlesAll sight (keywords.map Prod.snd) = true) :
    Leads globals sight (sight.afterAll (keywords.map Prod.snd))
      (performKeywords call globals Gate.opened keywords ctx) (do
        let named ← attemptKeywords manner call keywords
        pure (named.flatMap fun k => [.str k.name, k.value])) := by
  induction keywords generalizing ctx sight with
  | nil =>
    rw [map_nil, Sight.afterAll_nil]
    exact leads_pure []
  | cons keyword rest ih =>
    obtain ⟨name, n⟩ := keyword
    rw [map_cons, forall_mem_cons] at h
    rw [map_cons, settlesAll, Bool.and_eq_true] at hsettles
    rw [performKeywords, attemptKeywords, map_cons, Sight.afterAll_cons, bind_assoc]
    refine (h.1.leads hbounds hsettles.1).bind fun v => ?_
    have hrest := (ih h.2 (hbounds.after n) hsettles.2).bind fun others =>
      leads_pure (Value.str name :: v :: others)
    simpa only [bind_assoc, pure_bind, flatMap_cons, cons_append, nil_append]
      using hrest

/-- The arguments of a call and the call itself. The receiver comes first among the arguments. -/
theorem leads_arguments {args : List Node} {star doubleStar : Option Node}
    {keywords : List (Text × Node)}
    (h : ∀ m ∈ args ++ (star.toList ++ (keywords.map Prod.snd ++ doubleStar.toList)),
      m.Tracked manner call globals)
    (hplain : manner = .plain → star = none ∧ keywords = [] ∧ doubleStar = none)
    (hbounds : sight.Bounds ctx)
    (hsettles : settlesAll sight (args ++
      (star.toList ++ (keywords.map Prod.snd ++ doubleStar.toList))) = true)
    (function : Value) {receiver : Option Value} {front : List Value}
    (hfront : ∀ values, receiver.elim values (Machine.withReceiver · values) = front ++ values) :
    Leads globals sight
      (sight.afterAll (args ++ (star.toList ++ (keywords.map Prod.snd ++ doubleStar.toList))))
      (performArguments call globals Gate.opened args star keywords doubleStar ctx
        function receiver)
      (attemptArguments manner call args star keywords doubleStar function front) := by
  simp only [forall_mem_append, settlesAll_append, Sight.afterAll_append,
    Bool.and_eq_true] at h hsettles ⊢
  have hall := leads_all h.1 hbounds hsettles.1
  rw [performArguments, attemptArguments]
  by_cases hnone : star = none ∧ keywords = [] ∧ doubleStar = none
  · obtain ⟨rfl, rfl, rfl⟩ := hnone
    refine hall.bind fun positional => ?_
    simp only [Option.isNone_none, isEmpty_nil, Bool.and_self, if_true, Manner.gathers_none,
      Bool.false_eq_true, if_false, attemptStar, attemptKeywords, attemptDoubleStar, pure_bind,
      append_nil, map_nil, Option.toList_none, Sight.afterAll_nil]
    rw [← hfront positional]
    cases receiver <;> exact leads_ofRun _
  · have hgathering : manner = .gathering := by
      cases manner with
      | plain => exact absurd (hplain rfl) hnone
      | gathering => rfl
    have hspread : (star.isNone && doubleStar.isNone && keywords.isEmpty) = false := by
      rw [Bool.eq_false_iff]
      intro hempty
      simp only [Bool.and_eq_true, Option.isNone_iff_eq_none, List.isEmpty_iff] at hempty
      exact hnone ⟨hempty.1.1, hempty.2, hempty.1.2⟩
    have hgathers : manner.gathers star keywords doubleStar = true := by
      rw [Manner.gathers, hgathering, hspread]
      rfl
    have hcall : ∀ list dict, callSpread call function receiver list dict =
        ofRun (spreading list dict fun args named => call function (front ++ args) named) := by
      intro list dict
      simp only [← hfront, callSpread]
      cases receiver <;> rfl
    simp only [hspread, hgathers, if_true, Bool.false_eq_true, if_false, hcall]
    have hbounds1 := hbounds.afterAll args
    have hbounds2 := hbounds1.afterAll star.toList
    have hbounds3 := hbounds2.afterAll (keywords.map Prod.snd)
    refine hall.bind fun positional => (leads_ofRun _).bind fun list => ?_
    have hstar := leads_spread (extending list)
      (p := performStar call globals Gate.opened list star (ctx.afterAll args))
        (by cases star <;> rfl) h.2.1 hbounds1 hsettles.2.1
    have hspreads := hstar.bind fun _ =>
      (leads_keywords h.2.2.1 hbounds2 hsettles.2.2.1).bind fun named =>
        (leads_ofRun (Run.buildDict named)).bind fun dict =>
          (leads_spread (merging dict) (p :=
            performDoubleStar call globals Gate.opened dict doubleStar
            (((ctx.afterAll args).afterAll star.toList).afterAll (keywords.map Prod.snd)))
            (by cases doubleStar <;> rfl) h.2.2.2 hbounds3 hsettles.2.2.2).bind fun _ =>
            leads_ofRun (spreading list dict fun args named => call function (front ++ args) named)
    simpa only [bind_assoc, pure_bind] using hspreads

theorem tracked_call {callee : Node} {args : List Node} {star doubleStar : Option Node}
    {method : Bool} (h : ∀ m ∈ (Node.call callee args star keywords doubleStar method).children,
      m.Tracked manner call globals)
    (hobject : ∀ m ∈ callee.children, m.Tracked manner call globals)
    (hplain : manner = .plain → star = none ∧ keywords = [] ∧ doubleStar = none) :
    (Node.call callee args star keywords doubleStar method).Tracked manner call globals := by
  have hchildren : (Node.call callee args star keywords doubleStar method).children =
      callee :: (args ++ (star.toList ++ (keywords.map Prod.snd ++ doubleStar.toList))) := by
    simp
  refine tracked_of_leads trivial fun ctx sight hbounds hsettles => ?_
  rw [hchildren, settlesAll, Bool.and_eq_true] at hsettles
  rw [hchildren, forall_mem_cons] at h
  rw [hchildren, Sight.afterAll_cons, perform_call, attempt_call]
  have hrest := @leads_arguments (ctx.after callee) globals (sight.after callee) manner call args
    star doubleStar keywords h.2 hplain (hbounds.after callee) hsettles.2
  change Leads globals sight _ (performCallee call globals Gate.opened callee method ctx >>= _) _
  by_cases hmethod : ∃ object name, callee = .attr object name ∧ method = true
  · obtain ⟨object, name, rfl, rfl⟩ := hmethod
    have hsight : sight.after (.attr object name) = sight.after object := by
      simp [Sight.after_eq (n := .attr object name) trivial]
    rw [settles] at hsettles
    simp only [performCallee, attemptCallee, bind_assoc, pure_bind]
    refine ((hobject object (by simp)).leads hbounds hsettles.1).bind fun v => ?_
    rw [← hsight]
    by_cases hv : v = .noReceiver
    · subst hv
      exact ⟨Sight.extends_afterAll _ _, fun s e hagrees => .failure hagrees.heap⟩
    · exact (leads_ofRun _).bind fun found => hrest found.1 (withReceiver_eq hv found.2)
  · have hperform : performCallee call globals Gate.opened callee method ctx = (do
        let function ← callee.perform call globals Gate.opened ctx
        pure (function, none)) := by
      rw [performCallee]
      exact fun object name heq htrue => hmethod ⟨object, name, heq, htrue⟩
    have hattempt : attemptCallee manner call callee method = (do
        let function ← callee.attempt manner call
        pure (function, [])) := by
      rw [attemptCallee]
      exact fun object name heq htrue => hmethod ⟨object, name, heq, htrue⟩
    rw [hperform, hattempt]
    simp only [bind_assoc, pure_bind]
    exact (h.1.leads hbounds hsettles.1).bind fun function => hrest function fun _ => rfl

theorem tracked_cond {test yes no : Node} (htest : test.Tracked manner call globals)
    (hyes : yes.Tracked manner call globals) (hno : no.Tracked manner call globals) :
    (Node.cond test yes no).Tracked manner call globals := by
  intro ctx sight hbounds hsettles
  simp only [settles, Bool.and_eq_true] at hsettles
  obtain ⟨⟨hsettlesTest, hsettlesYes⟩, hsettlesNo⟩ := hsettles
  have hafter : sight.after (.cond test yes no) =
      ⟨(sight.after test).touched ++ (yes.assigned ++ no.assigned),
        (sight.after test).sure ++ yes.certain.filter (no.certain.contains ·)⟩ := by
    simp [Sight.after, certain, assigned_eq (n := .cond test yes no)]
  have hlater : (sight.after test).Extends (sight.after (.cond test yes no)) := by
    rw [hafter]
    exact ⟨subset_append_left _ _, subset_append_left _ _⟩
  have hbounds' := hbounds.after test
  refine Leads.tracks ?_
  rw [perform, attempt]
  refine (htest.leads hbounds hsettlesTest).bind fun t => (leads_truthy t).bind fun truth =>
    leads_ite ?_ ?_
  · refine (hyes.leads hbounds' hsettlesYes).weaken hlater ?_ ?_ <;> rw [hafter]
    · exact append_subset_append (Subset.refl _) (subset_append_left _ _)
    · exact append_subset_append (Subset.refl _) (filter_subset_self _)
  -- The other alternative knows of the assignments in the first, and cannot count on them.
  · refine (Leads.beside (hno.leads (hbounds'.beside yes) hsettlesNo)).weaken hlater ?_ ?_ <;>
      rw [hafter]
    · simp [Sight.after, Sight.beside]
    · refine append_subset_append (Subset.refl _) fun name hname => ?_
      simpa using (mem_filter.mp hname).2

/-- An expression that does something with the value of its only operand. -/
theorem tracked_single (hstrict : n.Strict) (hchildren : n.children = [a])
    (ha : ∀ m ∈ n.children, m.Tracked manner call globals) {f : Value → Perform Value}
    {g : Value → Attempt Value}
    (hperform : ∀ ctx, n.perform call globals Gate.opened ctx =
      a.perform call globals Gate.opened ctx >>= f)
    (hattempt : n.attempt manner call = a.attempt manner call >>= g)
    (hfg : ∀ v sight, Leads globals sight sight (f v) (g v)) : n.Tracked manner call globals := by
  refine tracked_of_leads hstrict fun ctx sight hbounds hsettles => ?_
  rw [hchildren, settlesAll, Bool.and_eq_true] at hsettles
  rw [hchildren, hperform, hattempt, Sight.afterAll_cons, Sight.afterAll_nil]
  exact ((ha a (by rw [hchildren]; simp)).leads hbounds hsettles.1).bind fun v => hfg v _

/-- An expression that does something with the values of its two operands. -/
theorem tracked_double {b : Node} (hstrict : n.Strict) (hchildren : n.children = [a, b])
    (h : ∀ m ∈ n.children, m.Tracked manner call globals) {f : Value → Value → Run Value}
    (hperform : ∀ ctx, n.perform call globals Gate.opened ctx = (do
      let v ← a.perform call globals Gate.opened ctx
      let w ← b.perform call globals Gate.opened (ctx.after a)
      ofRun (f v w))) (hattempt : n.attempt manner call = (do
      let v ← a.attempt manner call
      let w ← b.attempt manner call
      Attempt.ofRun (f v w))) : n.Tracked manner call globals := by
  refine tracked_of_leads hstrict fun ctx sight hbounds hsettles => ?_
  simp only [hchildren, settlesAll, Bool.and_eq_true] at hsettles
  rw [hchildren, hperform, hattempt]
  simp only [Sight.afterAll_cons, Sight.afterAll_nil]
  exact ((h a (by rw [hchildren]; simp)).leads hbounds hsettles.1).bind fun v =>
    ((h b (by rw [hchildren]; simp)).leads (hbounds.after a) hsettles.2.1).bind fun w =>
      leads_ofRun _

/-- What the code of an expression performs is its evaluation. -/
theorem tracked (n : Node) : (manner = .plain → n.Everywhere Regular) → n.Everywhere Built →
    n.Tracked manner call globals := by
  induction n using descent with
  | h n ih ihBelow =>
  intro hregular hbuilt
  have hoperands : ∀ m ∈ n.children, m.Tracked manner call globals := fun m hm =>
    ih m hm (fun hplain => (everywhere_iff.mp (hregular hplain)).2 m hm)
      ((everywhere_iff.mp hbuilt).2 m hm)
  cases n with
  | const v signature =>
    refine tracked_of_leads trivial fun ctx sight hbounds hsettles => ?_
    rw [perform, attempt, children, Sight.afterAll_nil]
    exact leads_pure v
  | var name =>
    intro ctx sight hbounds hsettles
    have hafter : sight.after (.var name) = sight := by
      simp [Sight.after, certain, assigned_eq (n := .var name)]
    rw [perform, attempt, hafter]
    exact (leads_name hbounds hsettles).tracks
  | unary op operand =>
    exact tracked_single trivial rfl hoperands (fun _ => by rw [perform]; rfl) (by rw [attempt])
      fun _ _ => leads_ofRun _
  | attr base name =>
    exact tracked_single trivial rfl hoperands (fun _ => by rw [perform]; rfl) (by rw [attempt])
      fun _ _ => leads_ofRun _
  | next pair =>
    exact tracked_single trivial rfl hoperands (fun _ => by rw [perform]; rfl) (by rw [attempt])
      fun _ _ => leads_transfer _
  | binary op left right =>
    exact tracked_double trivial rfl hoperands (fun _ => by rw [perform]; rfl) (by rw [attempt])
  | subscript base index =>
    exact tracked_double trivial rfl hoperands (fun _ => by rw [perform]; rfl) (by rw [attempt])
  | compare subject links =>
    intro ctx sight hbounds hsettles
    rw [children, forall_mem_cons] at hoperands
    rw [settles, settlesLinks_eq, Bool.and_eq_true] at hsettles
    have hafter : sight.after (.compare subject links) =
        ⟨(sight.after subject).touched ++ (links.map Prod.snd).flatMap assigned,
          (sight.after subject).sure ++ certainLink links⟩ := by
      simp [Sight.after, certain, assigned_eq (n := .compare subject links)]
    rw [perform, attempt, hafter]
    exact ((hoperands.1.leads hbounds hsettles.1).bind fun v => leads_links
      (everywhere_iff.mp hbuilt).1 hoperands.2 (hbounds.after subject) hsettles.2 _ v).tracks
  | logical junction operands =>
    intro ctx sight hbounds hsettles
    have hafter : sight.after (.logical junction operands) =
        ⟨sight.touched ++ operands.flatMap assigned, sight.sure ++ certainFirst operands⟩ := by
      simp [Sight.after, certain, assigned_eq (n := .logical junction operands)]
    rw [perform, attempt, hafter]
    exact (leads_operands hoperands hbounds hsettles).tracks
  | cond test yes no =>
    exact tracked_cond (hoperands test (by simp)) (hoperands yes (by simp))
      (hoperands no (by simp))
  | collection kind elements =>
    refine tracked_of_leads trivial fun ctx sight hbounds hsettles => ?_
    rw [perform, attempt]
    refine (leads_all hoperands hbounds hsettles).bind fun values => ?_
    cases kind <;> exact leads_ofRun _
  | sliceObj start stop step =>
    refine tracked_of_leads trivial fun ctx sight hbounds hsettles => ?_
    rw [perform, attempt]
    exact leads_bounds hoperands hbounds hsettles fun _ _ _ _ => leads_ofRun _
  | slice base start stop step =>
    have hgathering : manner = .gathering := by
      cases manner with
      | plain => exact ((everywhere_iff.mp (hregular rfl)).1).elim
      | gathering => rfl
    refine tracked_of_leads trivial fun ctx sight hbounds hsettles => ?_
    rw [children, settlesAll, Bool.and_eq_true] at hsettles
    rw [children, forall_mem_cons] at hoperands
    rw [perform, attempt, children, Sight.afterAll_cons]
    refine (hoperands.1.leads hbounds hsettles.1).bind fun v =>
      leads_bounds hoperands.2 (hbounds.after base) hsettles.2 fun a b c sight => ?_
    rw [hgathering, Manner.slice, Attempt.ofRun_bind]
    exact (leads_ofRun _).bind fun s => leads_ofRun _
  | call callee args star keywords doubleStar method =>
    have hmem : callee ∈ (Node.call callee args star keywords doubleStar method).children := by
      simp
    exact tracked_call hoperands (fun m hm => ihBelow callee hmem m hm
      (fun hplain => (everywhere_iff.mp ((everywhere_iff.mp (hregular hplain)).2 callee hmem)).2 m
        hm) ((everywhere_iff.mp ((everywhere_iff.mp hbuilt).2 callee hmem)).2 m hm))
      fun hplain => (everywhere_iff.mp (hregular hplain)).1
  | store name value =>
    intro ctx sight hbounds hsettles
    have htouch : sight.Bounds (ctx.touch name) := ⟨hbounds.sure, hbounds.touched⟩
    have hvalue := (hoperands value (by simp)).leads htouch hsettles
    have hlater : (sight.after value).Extends (sight.after (.store name value)) := by
      constructor <;> simp only [Sight.after, certain, assigned_store] <;> grind
    rw [perform, attempt]
    refine (hvalue.bind fun v => (leads_assign v hlater ?_ ?_).bind fun _ =>
      leads_pure Value.none).tracks
    · simp [Sight.after, assigned_store]
    · simp only [Sight.after, certain]
      grind
  | sequence steps =>
    refine tracked_of_leads trivial fun ctx sight hbounds hsettles => ?_
    rw [perform, attempt]
    exact leads_steps hoperands hbounds hsettles

end Tracked

end Node

end ExprBackend
