import ExprBackend.Proofs.StackContract

/-! # Occurrences of expressions

An expression occurs below another where the code of the other passes it through the
gate. A method is looked up on its receiver, so that the receiver takes the place of
the callee; otherwise the operands are passed in their order.

An observer of the emission is told of every occurrence, from the bottom up and as
long as the code can be reached. The code of expressions whose operands have values
can be reached throughout, and so the observer is told of exactly the occurrences.
-/

namespace ExprBackend

open List

variable {c c' : Code} {ms ns : List Node} {n : Node}

namespace Node

variable {m : Node} {P : Node → Prop}

/-- An operand is below the expression, or below the callee that it replaces. -/
theorem mem_children_of_mem_operands (h : m ∈ n.operands) :
    m ∈ n.children ∨ ∃ callee ∈ n.children, m ∈ callee.children := by
  unfold operands at h
  split at h
  next callee args star keywords doubleStar method =>
    rcases mem_cons.mp h with rfl | h
    · unfold origin
      split
      next base name => exact .inr ⟨.attr base name, by simp, by simp⟩
      next => exact .inl (by simp)
    · have hrest := mem_cons_of_mem callee h
      exact .inl (by simpa only [children, present_cons, present_nil, append_nil, append_assoc,
        cons_append] using hrest)
  next => exact .inl (by simpa [children, present_cons, present_nil] using h)
  next => exact .inl h

theorem sizeOf_lt_of_mem_operands (h : m ∈ n.operands) : sizeOf m < sizeOf n := by
  rcases mem_children_of_mem_operands h with h | ⟨callee, hcallee, h⟩
  · exact sizeOf_lt_of_mem_children h
  · exact Nat.lt_trans (sizeOf_lt_of_mem_children h) (sizeOf_lt_of_mem_children hcallee)

/-- What holds of an expression and of everything below it holds of its operands. -/
theorem Everywhere.operand (h : n.Everywhere P) (hm : m ∈ n.operands) : m.Everywhere P := by
  rcases mem_children_of_mem_operands hm with hm | ⟨callee, hcallee, hm⟩
  · exact (everywhere_iff.mp h).2 m hm
  · exact (everywhere_iff.mp ((everywhere_iff.mp h).2 callee hcallee)).2 m hm

/-- The occurrences of expressions below another, each with the expression it is an operand of. -/
def occurrences (n : Node) : List (Node × Node) :=
  n.operands.attach.flatMap fun m => m.1.occurrences ++ [(n, m.1)]
termination_by sizeOf n
decreasing_by exact sizeOf_lt_of_mem_operands m.2

theorem occurrences_eq (n : Node) :
    n.occurrences = n.operands.flatMap fun m => m.occurrences ++ [(n, m)] := by
  rw [occurrences, flatMap_subtype (g := fun m => m.occurrences ++ [(n, m)]) fun _ _ => rfl,
    unattach_attach]

/-- What holds of an expression and of everything below it holds of both sides of its occurrences.
-/
theorem Everywhere.occurrence (n : Node) (h : n.Everywhere P) :
    ∀ p m, (p, m) ∈ n.occurrences → p.Everywhere P ∧ m.Everywhere P := by
  induction n using occurrences.induct with
  | case1 n ih =>
    intro p m hm
    rw [occurrences_eq, mem_flatMap] at hm
    obtain ⟨k, hk, hm⟩ := hm
    rcases mem_append.mp hm with hm | hm
    · exact ih ⟨k, hk⟩ (h.operand hk) p m hm
    · obtain ⟨rfl, rfl⟩ := Prod.mk.inj (mem_singleton.mp hm)
      exact ⟨h, h.operand hk⟩

/-- What an observer is told of an occurrence. -/
def sighted (occurrence : Node × Node) : Observation :=
  ⟨some occurrence.1.lazySignature, occurrence.2, occurrence.2.effect, true⟩

/-- What an observer is told of an expression that occurs under a parent, or under none. -/
def observed (parent : Option LazySignature) (n : Node) : List Observation :=
  n.occurrences.map sighted ++ [⟨parent, n, n.effect, true⟩]

theorem map_sighted_occurrences (n : Node) :
    n.occurrences.map sighted = n.operands.flatMap (observed (some n.lazySignature)) := by
  rw [occurrences_eq, map_flatMap]
  refine congrArg (n.operands.flatMap ·) (funext fun m => ?_)
  rw [map_append]
  rfl

end Node

/-- The buffer is watched as before. What the observer has been told meanwhile is of expressions one
after the other, if none of it could not be reached. -/
structure Code.Shown (ns : List Node) (c c' : Code) : Prop where
  observing : c'.observing = c.observing
  interceptor : c'.interceptor = c.interceptor
  emitting : c'.emitting = c.emitting
  observations : ∃ told, c'.observations.toList = c.observations.toList ++ told ∧
    ((∀ o ∈ told, o.reachable = true) → told = ns.flatMap (Node.observed c.emitting.head?))

theorem Code.Shown.trans {c1 c2 : Code} (h : c.Shown ns c1) (h' : c1.Shown ms c2) :
    c.Shown (ns ++ ms) c2 where
  observing := h'.observing.trans h.observing
  interceptor := h'.interceptor.trans h.interceptor
  emitting := h'.emitting.trans h.emitting
  observations := by
    obtain ⟨told, heq, htold⟩ := h.observations
    obtain ⟨told', heq', htold'⟩ := h'.observations
    refine ⟨told ++ told', by rw [heq', heq, append_assoc], fun hall => ?_⟩
    rw [htold fun o ho => hall o (mem_append_left _ ho),
      htold' fun o ho => hall o (mem_append_right _ ho), h.emitting, flatMap_append]

/-- Nothing happens that an observer is told of. -/
theorem Code.shown_nil (hobserving : c'.observing = c.observing)
    (hinterceptor : c'.interceptor = c.interceptor) (hemitting : c'.emitting = c.emitting)
    (hobservations : c'.observations = c.observations) : c.Shown [] c' :=
  ⟨hobserving, hinterceptor, hemitting, [], by rw [hobservations, append_nil], fun _ => rfl⟩

theorem Code.Branches.shown {l : Label} {d : Int} (h : c.Branches l d c') : c.Shown [] c' := by
  cases h with
  | dead | backward => exact shown_nil rfl rfl rfl rfl
  | forward => exact shown_nil rfl rfl rfl rfl

namespace Emit

/-- The emission passes expressions through the gate, one after the other, as an observer sees it if
nothing intercepts. -/
def Shows {α : Type} (x : Emit α) (ns : List Node) : Prop :=
  ∀ marks c a c', x.Yields marks c a c' → c.observing = true → c.interceptor = none → c.Shown ns c'

section Shows

variable {α β : Type} {x : Emit α} {f : α → Emit β}

theorem shows_pure (a : α) : Shows (pure a : Emit α) [] := by
  intro marks c b c' h _ _
  obtain ⟨-, rfl⟩ := yields_pure.mp h
  exact Code.shown_nil rfl rfl rfl rfl

theorem Shows.bind (hx : Shows x ns) (hf : ∀ a, Shows (f a) ms) : Shows (x >>= f) (ns ++ ms) := by
  intro marks c b c' h hobserving hnone
  obtain ⟨a, c1, hfirst, hrest⟩ := yields_bind.mp h
  have hshown := hx marks c a c1 hfirst hobserving hnone
  exact hshown.trans (hf a marks c1 b c' hrest (hshown.observing.trans hobserving)
    (hshown.interceptor.trans hnone))

/-- What is not seen can stand in front. -/
theorem Shows.after (hx : Shows x []) (hf : ∀ a, Shows (f a) ms) : Shows (x >>= f) ms :=
  hx.bind hf

/-- What is not seen can follow. -/
theorem Shows.before (hx : Shows x ns) (hf : ∀ a, Shows (f a) []) : Shows (x >>= f) ns := by
  simpa only [append_nil] using hx.bind hf

theorem shows_append (op : Opcode) (operand change : Int) :
    Shows (append op operand change) [] := by
  intro marks c u c' h _ _
  obtain rfl := yields_append.mp h
  exact Code.shown_nil rfl rfl rfl rfl

theorem shows_loadConst (v : Value) : Shows (loadConst v) [] := by
  intro marks c u c' h _ _
  obtain rfl := pooled_of_yields h
  exact Code.shown_nil rfl rfl rfl rfl

theorem shows_loadName (name : Text) : Shows (loadName name) [] := by
  intro marks c u c' h _ _
  rcases loadName_of_yields h with ⟨slot, -, rfl⟩ | ⟨-, rfl⟩ <;>
    exact Code.shown_nil rfl rfl rfl rfl

theorem shows_storeName (name : Text) : Shows (storeName name) [] := by
  intro marks c u c' h _ _
  obtain rfl := yields_storeName.mp h
  rw [c.declared_eq name]
  exact Code.shown_nil rfl rfl rfl rfl

theorem shows_getAttr (name : Text) : Shows (getAttr name) [] := by
  intro marks c u c' h _ _
  obtain rfl := pooled_of_yields h
  exact Code.shown_nil rfl rfl rfl rfl

theorem shows_loadMethod (name : Text) : Shows (loadMethod name) [] := by
  intro marks c u c' h _ _
  obtain rfl := pooled_of_yields h
  exact Code.shown_nil rfl rfl rfl rfl

theorem shows_newLabel : Shows newLabel [] := by
  intro marks c l c' h _ _
  obtain ⟨-, rfl⟩ := yields_newLabel.mp h
  exact Code.shown_nil rfl rfl rfl rfl

theorem shows_mark (l : Label) : Shows (mark l) [] := by
  intro marks c u c' h _ _
  obtain ⟨-, info, -, -, -, rfl⟩ := marked_of_yields h
  exact Code.shown_nil rfl rfl rfl rfl

theorem shows_jump (l : Label) : Shows (jump l) [] := by
  intro marks c u c' h _ _
  obtain ⟨c1, hbranch, rfl⟩ := jump_of_yields h
  exact hbranch.shown.trans (Code.shown_nil rfl rfl rfl rfl)

theorem shows_popJump (op : Opcode) (l : Label) : Shows (popJump op l) [] := by
  intro marks c u c' h _ _
  have happend : c.Shown [] (c.appended op l (-1)) := Code.shown_nil rfl rfl rfl rfl
  exact happend.trans (popJump_of_yields h).shown

theorem shows_jumpOrPop (op : Opcode) (l : Label) : Shows (jumpOrPop op l) [] := by
  intro marks c u c' h _ _
  obtain ⟨c1, hbranch, rfl⟩ := jumpOrPop_of_yields h
  exact hbranch.shown.trans (Code.shown_nil rfl rfl rfl rfl)

theorem shows_leave (junction : Junction) (l : Label) : Shows (leave junction l) [] := by
  cases junction with
  | and => exact shows_jumpOrPop _ l
  | or => exact shows_jumpOrPop _ l

theorem shows_popEffect (effect : Int) : Shows (popEffect effect) [] := by
  unfold popEffect
  split
  · exact shows_append _ _ _
  · exact shows_pure ()

theorem shows_callEx (withReceiver : Bool) : Shows (callEx withReceiver) [] := by
  cases withReceiver <;> exact shows_append _ _ _

/-- The gate tells of the expression itself and whether what follows can be reached, after it has
told of what is below. -/
theorem told_of_expression {x : Emit Unit} (hx : Shows x n.operands) {marks : Marks} {u : Unit}
    (h : (expression n x).Yields marks c u c') (hobserving : c.observing = true)
    (hnone : c.interceptor = none) :
    (c'.observing = c.observing ∧ c'.interceptor = c.interceptor ∧ c'.emitting = c.emitting) ∧
      ∃ told net, c'.observations.toList =
          c.observations.toList ++ (told ++ [⟨c.emitting.head?, n, net, c'.reachable⟩]) ∧
        ((∀ o ∈ told, o.reachable = true) → told = n.occurrences.map Node.sighted) ∧
        (c'.reachable = true → net = n.effect) := by
  obtain ⟨c1, hinner, hpromise, events, rfl⟩ := gate_of_yields h
  have hshown := hx marks _ () c1 ((yields_interceptable (by exact hnone)).mp hinner)
    hobserving hnone
  obtain ⟨told, heq, htold⟩ := hshown.observations
  refine ⟨⟨hshown.observing, hshown.interceptor, rfl⟩, told, height (c1.depth - c.depth), ?_,
    fun hall => ?_, hpromise⟩
  · rw [Code.noted_observations, if_pos (hshown.observing.trans hobserving), Array.toList_push, heq]
    exact append_assoc ..
  · rw [htold hall, Node.map_sighted_occurrences]
    rfl

theorem Shows.expression {n : Node} {x : Emit Unit} (hx : Shows x n.operands) :
    Shows (expression n x) [n] := by
  intro marks c u c' h hobserving hnone
  obtain ⟨⟨hobserving', hnone', hemitting⟩, told, net, heq, htold, hnet⟩ :=
    told_of_expression hx h hobserving hnone
  refine ⟨hobserving', hnone', hemitting, _, heq, fun hall => ?_⟩
  have hlive : c'.reachable = true := hall _ (mem_append_right _ (mem_singleton_self _))
  rw [htold fun o ho => hall o (mem_append_left _ ho), hnet hlive, hlive, flatMap_singleton]
  rfl

end Shows

end Emit

namespace Node

open Emit

/-- The code of an expression shows its operands. -/
abbrev Passes (n : Node) : Prop := Shows n.emit n.operands

variable {star : Option Node} {keywords : List (Text × Node)} {callee : Node} {method : Bool}

theorem shows_emitAll (h : ∀ n ∈ ns, n.Passes) : Shows (emitAll ns) ns := by
  induction ns with
  | nil => exact shows_pure ()
  | cons n rest ih =>
    exact (h n (by simp)).expression.bind fun _ => ih fun m hm => h m (by simp [hm])

theorem shows_emitLinks {links : List (CompareOp × Node)} (h : ∀ n ∈ links.map Prod.snd, n.Passes)
    (cleanup : Label) : Shows (emitLinks cleanup links) (links.map Prod.snd) := by
  induction links with
  | nil => exact shows_pure ()
  | cons link rest ih =>
    have hfirst := (h link.2 (by simp)).expression
    cases rest with
    | nil => exact hfirst.before fun _ => shows_append _ _ _
    | cons link' rest =>
      rw [emitLinks, emitLinksBy_cons]
      exact hfirst.bind fun _ => (shows_append _ _ _).after fun _ =>
        (shows_append _ _ _).after fun _ =>
        (shows_append _ _ _).after fun _ => (shows_jumpOrPop _ cleanup).after fun _ =>
        ih fun m hm => h m (by simp only [map_cons, mem_cons] at hm ⊢; tauto)

theorem shows_emitOperands (h : ∀ n ∈ ns, n.Passes) (junction : Junction) (done : Label) :
    Shows (emitOperands junction done ns) ns := by
  induction ns with
  | nil => exact shows_pure ()
  | cons n rest ih =>
    have hfirst := (h n (by simp)).expression
    cases rest with
    | nil => exact hfirst
    | cons m rest =>
      rw [emitOperands, emitOperandsBy_cons]
      exact hfirst.bind fun _ => (shows_leave junction done).after fun _ =>
        ih fun m hm => h m (mem_cons_of_mem _ hm)

/-- Steps are left out only behind code that cannot be reached, of which the observer is told. -/
theorem shows_emitSteps (h : ∀ n ∈ ns, n.Passes) : Shows (emitSteps ns) ns := by
  induction ns with
  | nil => exact shows_pure ()
  | cons n rest ih =>
    have hfirst := (h n (by simp)).expression
    cases rest with
    | nil => exact hfirst
    | cons m rest =>
      rw [emitSteps, emitStepsBy_cons]
      intro marks c u c' hemits hobserving hnone
      obtain ⟨_, c1, hstep, hemits⟩ := yields_bind.mp hemits
      rw [yields_get_bind] at hemits
      have hshown := hfirst marks c _ c1 hstep hobserving hnone
      obtain ⟨-, hemits⟩ | ⟨hdead, hemits⟩ := yields_ite.mp hemits
      · have hrest := (shows_popEffect n.effect).after fun _ =>
          ih fun k hk => h k (mem_cons_of_mem _ hk)
        exact hshown.trans (hrest marks c1 u c' hemits (hshown.observing.trans hobserving)
          (hshown.interceptor.trans hnone))
      · obtain ⟨-, rfl⟩ := yields_pure.mp hemits
        obtain ⟨-, told, net, heq, -, -⟩ :=
          told_of_expression (h n (by simp)) hstep hobserving hnone
        refine ⟨hshown.observing, hshown.interceptor, hshown.emitting, _, heq, fun hall => ?_⟩
        exact absurd (hall _ (mem_append_right _ (mem_singleton_self _))) hdead

theorem shows_emitBound {bound : Option Node} (h : ∀ n ∈ bound.toList, n.Passes) :
    Shows (emitBound bound) bound.toList := by
  cases bound with
  | none => exact shows_append _ _ _
  | some n => exact (h n (by simp)).expression

theorem shows_emitStar (h : ∀ n ∈ star.toList, n.Passes) : Shows (emitStar star) star.toList := by
  cases star with
  | none => exact shows_pure ()
  | some n => exact (h n (by simp)).expression.before fun _ => shows_append _ _ _

theorem shows_emitDoubleStar (h : ∀ n ∈ star.toList, n.Passes) :
    Shows (emitDoubleStar star) star.toList := by
  cases star with
  | none => exact shows_pure ()
  | some n => exact (h n (by simp)).expression.before fun _ => shows_append _ _ _

theorem shows_emitKeywords (h : ∀ n ∈ keywords.map Prod.snd, n.Passes) :
    Shows (emitKeywords keywords) (keywords.map Prod.snd) := by
  induction keywords with
  | nil => exact shows_pure ()
  | cons keyword rest ih =>
    exact (shows_loadConst _).after fun _ => (h keyword.2 (by simp)).expression.bind fun _ =>
      ih fun m hm => h m (by simp only [map_cons, mem_cons] at hm ⊢; tauto)

theorem shows_emitCallee (h : (callee.origin method).Passes) :
    Shows (emitCallee callee method) [callee.origin method] := by
  unfold emitCallee emitCalleeBy
  split
  · exact h.expression.before fun _ => (shows_loadMethod _).after fun _ => shows_pure true
  · rename_i hplain
    have horigin : callee.origin method = callee := by
      unfold origin
      split
      · exact absurd rfl (hplain _ _ · rfl)
      · rfl
    rw [horigin] at h ⊢
    exact h.expression.before fun _ => shows_pure false

theorem shows_emitBounds {start stop step : Option Node}
    (h : ∀ m ∈ present [start, stop, step], m.Passes) :
    Shows (do
      emitBound start
      emitBound stop
      emitBound step
      buildSlice) (present [start, stop, step]) := by
  simp only [present_cons, present_nil] at h ⊢
  refine (shows_emitBound fun n hn => h n (by simp [hn])).bind fun _ => ?_
  refine (shows_emitBound fun n hn => h n (by simp [hn])).bind fun _ => ?_
  refine (shows_emitBound fun n hn => h n (by simp [hn])).bind fun _ => ?_
  exact shows_append _ _ _

theorem passes_call {args : List Node} {doubleStar : Option Node}
    (h : ∀ m ∈ (Node.call callee args star keywords doubleStar method).operands, m.Passes) :
    (Node.call callee args star keywords doubleStar method).Passes := by
  rw [Passes, emit, emitBy_call]
  rw [operands] at h ⊢
  refine (shows_emitCallee (h _ (by simp))).bind fun withReceiver => ?_
  refine (shows_emitAll fun n hn => h n (by simp [hn])).bind fun _ => ?_
  split
  next hplain =>
    -- What a plain call lacks has no operands either.
    simp only [Bool.and_eq_true, Option.isNone_iff_eq_none, List.isEmpty_iff] at hplain
    obtain ⟨⟨rfl, rfl⟩, rfl⟩ := hplain
    split <;> exact shows_append _ _ _
  next =>
    refine (shows_append _ _ _).after fun _ => ?_
    refine (shows_emitStar fun n hn => h n (by simp_all)).bind fun _ => ?_
    refine (shows_emitKeywords fun n hn => h n (by simp_all)).bind fun _ => ?_
    refine (shows_append _ _ _).after fun _ => ?_
    exact (shows_emitDoubleStar fun n hn => h n (by simp_all)).before fun _ =>
      shows_callEx withReceiver

/-- The code of an expression shows its operands if the code of these shows theirs. -/
theorem passes_of_operands (hstraight : n.isNext = false) (h : ∀ m ∈ n.operands, m.Passes) :
    n.Passes := by
  cases n with
  | const v s => exact shows_loadConst v
  | var name => exact shows_loadName name
  | unary op operand =>
    exact (h operand (by simp [operands])).expression.before fun _ => shows_append _ _ _
  | binary op left right =>
    exact (h left (by simp [operands])).expression.bind fun _ =>
      (h right (by simp [operands])).expression.before fun _ => shows_append _ _ _
  | compare subject links =>
    have hsubject := (h subject (by simp [operands])).expression
    have hlinks : ∀ n ∈ links.map Prod.snd, n.Passes := fun n hn => h n (by simp [operands, hn])
    by_cases hsingle : links.length = 1
    · obtain ⟨⟨op, n⟩, rfl⟩ := length_eq_one_iff.mp hsingle
      rw [Passes, emit, emitBy_compare_single]
      exact hsubject.bind fun _ => (hlinks n (by simp)).expression.before fun _ =>
        shows_append _ _ _
    · rw [Passes, emit, emitBy_compare_chain _ subject hsingle]
      exact hsubject.bind fun _ => shows_newLabel.after fun cleanup =>
        shows_newLabel.after fun done =>
        (shows_emitLinks hlinks cleanup).before fun _ => (shows_jump done).after fun _ =>
        (shows_mark cleanup).after fun _ => (shows_append _ _ _).after fun _ =>
        (shows_append _ _ _).after fun _ => shows_mark done
  | logical junction ns =>
    exact shows_newLabel.after fun done =>
      (shows_emitOperands h junction done).before fun _ => shows_mark done
  | cond test yes no =>
    exact shows_newLabel.after fun otherwise => shows_newLabel.after fun done =>
      (h test (by simp [operands])).expression.bind fun _ =>
      (shows_popJump _ otherwise).after fun _ =>
      (h yes (by simp [operands])).expression.bind fun _ => (shows_jump done).after fun _ =>
      (shows_mark otherwise).after fun _ =>
      (h no (by simp [operands])).expression.before fun _ => shows_mark done
  | collection kind elements =>
    refine (shows_emitAll h).before fun _ => ?_
    cases kind <;> exact shows_append _ _ _
  | subscript base index =>
    exact (h base (by simp [operands])).expression.bind fun _ =>
      (h index (by simp [operands])).expression.before fun _ => shows_append _ _ _
  | sliceObj start stop step => exact shows_emitBounds h
  | slice base start stop step =>
    have hpresent : present [start, stop, step] = start.toList ++ (stop.toList ++ step.toList) := by
      simp only [present_cons, present_nil, append_nil]
    have hbounds := (shows_emitBounds fun n hn => h n (mem_cons_of_mem base
      (hpresent ▸ hn))).before fun _ => shows_append .getIndex 0 (-1)
    simp only [bind_assoc, hpresent] at hbounds
    exact (h base (by simp [operands])).expression.bind fun _ => hbounds
  | attr base name =>
    exact (h base (by simp [operands])).expression.before fun _ => shows_getAttr name
  | call callee args star keywords doubleStar method => exact passes_call h
  | store name value =>
    exact (h value (by simp [operands])).expression.before fun _ => shows_storeName name
  | sequence steps => exact shows_emitSteps h
  | next pair => cases hstraight

theorem passes (n : Node) : n.Everywhere (·.isNext = false) → n.Passes := by
  induction n using occurrences.induct with
  | case1 n ih =>
    intro h
    exact passes_of_operands (everywhere_iff.mp h).1 fun m hm => ih ⟨m, hm⟩ (h.operand hm)

/-- The emission of an expression whose operands have values into a new buffer succeeds if its
constants have room in the pool, and tells an observer of every occurrence below it, then of the
expression. -/
theorem observations_emitInto (horderly : n.Everywhere Orderly)
    (hroom : 4 * n.subexpressions.length < 2 ^ 63) (name : Text) (marks : Marks)
    (hpool : (n.emitInto marks { Code.create name [] with observing := true } :
      Except Failure Unit × Code).2.chunk.constants.size ≤ 65536) :
    ∃ c', n.emitInto.Yields marks { Code.create name [] with observing := true } () c' ∧
      c'.observations.toList = n.observed none := by
  let start : Code := { Code.create name [] with observing := true }
  have hhanded : start.Handed (fun _ => True) ⟨0, true⟩ [] :=
    ⟨rfl, rfl, fun _ _ hmem => absurd hmem not_mem_nil, nodup_nil,
      fun first hfirst => by cases hfirst⟩
  have hsettles := n.honours horderly (fun _ _ => trivial) 0 0 [] (Int.le_refl _) (Int.le_refl _)
    (by rw [weight]; omega) marks start hhanded
  obtain ⟨_, c', hyields, -, -, hlive⟩ := hsettles.resolve_right fun hfull => hfull.not_le hpool
  have hpasses := n.passes fun m hm => (horderly m hm).straight
  obtain ⟨told, heq, htold⟩ := (hpasses.expression marks start () c' hyields rfl rfl).observations
  have htold' : c'.observations.toList = told := heq
  refine ⟨c', hyields, ?_⟩
  rw [htold', htold, flatMap_singleton]
  · rfl
  · intro o ho
    rcases hlive o (Array.mem_toList_iff.mp (htold' ▸ ho)) with hold | hreachable
    · exact absurd hold (Array.not_mem_empty o)
    · exact hreachable

end Node

end ExprBackend
