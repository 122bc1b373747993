import ExprBackend.Node.Build
import ExprBackend.Proofs.Concurrence

/-! # Folding keeps the meaning

An expression is built bottom up from operands that have been built before.
Operations on constants are carried out at once, chains end at constants that
decide them, and constant tests choose. What is built evaluates like the expression
as it was written, in every environment: to a value that is alike, with an environment
that is alike, or to the same failure. An operation that fails while it is built fails
with the same cause whenever it is evaluated.
-/

namespace ExprBackend

open List

variable {left result v : Value} {links : List (CompareOp × Node)} {ms ns : List Node}
  {op : Operation} {s t : Window} {vs : List Value} {x : Run Value}

def Build.wrapped (operation : Text) : Failure → Failure
  | .error (.runtime cause) => .error (.fold operation cause)
  | failure => failure

theorem Build.folding_apply {α : Type} (operation : Text) (x : Run α) (h : Heap) :
    Build.folding operation x h = match x h with
      | (.ok a, h') => (.ok a, h')
      | (.error failure, h') => (.error (wrapped operation failure), h') := by
  simp only [Build.folding, tryCatch, tryCatchThe, MonadExceptOf.tryCatch,
    ExceptT.tryCatch, ExceptT.mk, bind, StateT.bind]
  rcases x h with ⟨(e | _ | _) | _, h'⟩
  · cases e <;> rfl
  all_goals rfl

namespace Node

open Window

variable {call : Caller} {h : Heap} {k k' : Window} {m n : Node} {bound : Option Node}
  {parts : List Node}

/-! ## Operations on constants -/

/-- In all heaps that keep what is in sight, an expression comes to the same end. -/
structure Ends (call : Caller) (k : Window) (m : Node) (result : Except Failure Value) : Prop where
  concur : ∀ {s t : Window}, k.Keeps s → k.Keeps t →
    Concur s t Like (m.eval call) (Eval.ending result)

/-- An expression evaluates to a value all of which is in sight. -/
structure Stands (call : Caller) (k : Window) (m : Node) (v : Value) : Prop where
  ends : Ends call k m (.ok v)
  whole : k.Whole v

theorem Stands.keeps (hm : Stands call k m v) (hkeeps : k.Keeps k') :
    Stands call k' m v :=
  ⟨⟨fun hs ht => hm.ends.concur (hkeeps.trans hs) (hkeeps.trans ht)⟩, hm.whole.keeps hkeeps hkeeps⟩

section Ends

variable {result : Except Failure Value}

theorem Stands.concur (hm : Stands call k m v) (hs : k.Keeps s) (ht : k.Keeps t) :
    Concur s t (fun s' _ w _ => Like s' k w v) (m.eval call) (Eval.ending (.ok v)) := by
  intro env env' henv
  have hconcurs := hm.ends.concur hs ht env env' henv
  change Concurs s t Like _ (.ok v, ⟨t.heap, env'⟩) at hconcurs
  change Concurs s t _ _ (.ok v, ⟨t.heap, env'⟩)
  generalize m.eval call ⟨s.heap, env⟩ = outcome at hconcurs ⊢
  cases hconcurs with
  | ok hs' ht' henv' hlike =>
    exact .ok hs' ht' henv' (hlike.trans (hm.whole.keeps (ht.trans ht'.keeps) (.refl _)))

theorem concur_stands (hall : Forall₂ (Stands call k) ms vs) (hs : k.Keeps s)
    (ht : k.Keeps t) :
    Concur s t (fun s' _ ws _ => LikeAll s' k ws vs) (evalAll call ms) (Eval.ending (.ok vs)) := by
  induction hall generalizing s t with
  | nil => exact concur_pure .nil
  | cons hfirst _ ih =>
    refine concur_bind_left (hfirst.concur hs ht) fun hs' ht' hv => ?_
    refine concur_bind_left (ih (hs.trans hs') (ht.trans ht')) fun hs'' _ hvs => ?_
    exact concur_pure (.cons (hv.keeps hs'' (.refl _)) hvs)

/-- An operation comes to the end that it came to in another heap. -/
theorem concur_ending {y : Run Value} (hagree : Agree s k Like x y)
    (hcarries : k.Carries (y k.heap)) (hk : k.Becomes (y k.heap).2 k') (ht : k'.Keeps t) :
    Concur s t Like (Eval.ofRun x) (Eval.ending (y k.heap).1) := by
  intro env env' henv
  unfold Agree at hagree
  unfold Eval.ofRun Eval.ending
  dsimp only
  generalize x s.heap = outcome, y k.heap = outcome' at hagree hcarries hk
  cases hagree with
  | error _ hs _ => exact .error _ hs (.refl t) (henv.keeps hs.keeps (.refl t))
  | ok hs hh hlike =>
    obtain rfl := hh.unique hk
    cases hcarries with
    | ok hk' hwhole =>
      obtain rfl := hk.unique hk'
      exact .ok hs (.refl t) (henv.keeps hs.keeps (.refl t))
        (hlike.trans (hwhole.keeps (.refl _) ht))

theorem whole_of_stands (hall : Forall₂ (Stands call k) ms vs) : ∀ v ∈ vs, k.Whole v := by
  induction hall with
  | nil => exact forall_mem_nil _
  | cons hfirst _ ih => exact forall_mem_cons.mpr ⟨hfirst.whole, ih⟩

theorem carries_of_stands (op : Operation) (hall : Forall₂ (Stands call k) ms vs) :
    k.Carries (op.run vs k.heap) :=
  carries_of_agree (op.agree (forall₂_same.mpr (whole_of_stands hall)))

/-- An operation on operands that stand for values comes to the end that it comes to with these. -/
theorem ends_of_strict (hm : m.strict? = some (op, ms)) (hall : Forall₂ (Stands call k) ms vs)
    (hk : k.Becomes (op.run vs k.heap).2 k') : Ends call k' m (op.run vs k.heap).1 where
  concur hs ht := by
    rw [eval_of_strict hm]
    refine concur_bind_left (concur_stands hall (hk.keeps.trans hs) (hk.keeps.trans ht))
      fun _ ht' hvs => ?_
    exact concur_ending (op.agree hvs) (carries_of_stands op hall) hk (ht.trans ht')

end Ends

/-! ## What building keeps -/

/-- An expression has been built for another. -/
structure Renders (call : Caller) (k : Window) (m n : Node) : Prop where
  means : Means call k m n
  whole : ∀ {v : Value}, n.constant? = some v → k.Whole v

/-- What comes of building: what is to be made, or a failure, about which something is said if it is
that of an operation. -/
inductive Comes {α : Type} (k : Window) (made : Window → α → Prop)
    (fails : Window → Text → RuntimeError → Prop) : Except Failure α × Heap → Prop
  | ok {a : α} {k' : Window} : k.Becomes k'.heap k' → made k' a →
      Comes k made fails (.ok a, k'.heap)
  | error {failure : Failure} {k' : Window} : k.Becomes k'.heap k' →
      (∀ {operation : Text} {cause : RuntimeError}, failure = .error (.fold operation cause) →
        fails k' operation cause) → Comes k made fails (.error failure, k'.heap)

/-- What comes of building an expression. If an operation fails then, evaluating the expression
fails with the same cause. -/
abbrev Builds (call : Caller) (k : Window) (m : Node) : Except Failure Node × Heap → Prop :=
  Comes k (Renders call · m) fun k' _ cause => Ends call k' m (.error (.error (.runtime cause)))

theorem Renders.keeps (hmn : Renders call k m n) (hkeeps : k.Keeps k') :
    Renders call k' m n :=
  ⟨hmn.means.keeps hkeeps, fun hv => (hmn.whole hv).keeps hkeeps hkeeps⟩

theorem eq_const_of_constant? (hv : n.constant? = some v) :
    ∃ signature, n = .const v signature := by
  cases n <;> cases hv
  exact ⟨_, rfl⟩

theorem Renders.stands (hmn : Renders call k m n) (hv : n.constant? = some v) :
    Stands call k m v := by
  refine ⟨⟨fun hs ht => ?_⟩, hmn.whole hv⟩
  obtain ⟨signature, rfl⟩ := eq_const_of_constant? hv
  exact hmn.means.concur hs ht

theorem stands_of_constants (hall : Forall₂ (Renders call k) ms ns)
    (hvs : constants? ns = some vs) : Forall₂ (Stands call k) ms vs := by
  induction hall generalizing vs with
  | nil =>
    cases hvs
    exact .nil
  | cons hfirst _ ih =>
    unfold constants? at hvs
    split at hvs <;> cases hvs
    next hv hrest => exact .cons (hfirst.stands hv) (ih hrest)

/-- An expression that stands for a value is built as a constant. -/
theorem builds_const (hk : k.Becomes k'.heap k') (hm : Stands call k' m v) :
    Builds call k m (Build.const v k'.heap) :=
  .ok hk ⟨⟨hm.ends.concur⟩, fun hv => by cases hv; exact hm.whole⟩

/-- What building does with an operation on all operands: if these are constants, it is carried out.
-/
def strictly (name : Text) (op : Operation) (n : Node) (ns : List Node) : Run Node :=
  match constants? ns with
  | some values => Build.folded name (op.run values)
  | none => return n

/-- The outcome of an operation that an expression stands for becomes that of building it. -/
theorem builds_folded (name : Text) (hcarries : k.Carries (x k.heap))
    (hends : ∀ {k' : Window}, k.Becomes (x k.heap).2 k' → Ends call k' m (x k.heap).1) :
    Builds call k m (Build.folded name x k.heap) := by
  unfold Build.folded
  rw [bind_apply, Build.folding_apply]
  generalize x k.heap = outcome at hcarries hends
  cases hcarries with
  | ok hk hwhole => exact builds_const hk ⟨hends hk, hwhole⟩
  | error hk hraised =>
    cases hraised with
    | runtime e =>
      refine .error hk fun hfold => ?_
      cases hfold
      exact hends hk
    | fault f => exact .error hk nofun

theorem builds_strictly (name : Text) (hm : m.strict? = some (op, ms))
    (hn : n.strict? = some (op, ns)) (hall : Forall₂ (Renders call k) ms ns) :
    Builds call k m (strictly name op n ns k.heap) := by
  unfold strictly
  cases hvs : constants? ns with
  | some vs =>
    have hstands := stands_of_constants hall hvs
    exact builds_folded name (carries_of_stands op hstands) (ends_of_strict hm hstands)
  | none =>
    refine .ok (.refl _) ⟨means_of_strict hm hn (hall.imp fun _ _ hmn => hmn.means), fun hv => ?_⟩
    -- a constant has no operands
    cases n <;> cases hv
    cases hn

section Strictly

variable (a b c d : Node) (elements : List Node) (start stop step : Option Node)

theorem build_unary (op : UnaryOp) :
    Build.unary op a = strictly op.symbol (.unary op) (.unary op a) [a] := by
  unfold Build.unary strictly
  cases ha : a.constant? <;> simp [constants?, ha, Operation.run]

theorem build_binary (op : BinaryOp) :
    Build.binary op a b = strictly op.symbol (.binary op) (.binary op a b) [a, b] := by
  unfold Build.binary strictly
  cases ha : a.constant? <;> cases hb : b.constant? <;> simp [constants?, ha, hb, Operation.run]

theorem build_subscript :
    Build.subscript a b = strictly "getitem" .index (.subscript a b) [a, b] := by
  unfold Build.subscript strictly
  cases ha : a.constant? <;> cases hb : b.constant? <;> simp [constants?, ha, hb, Operation.run]

theorem build_list :
    Build.list elements = strictly [] .list (.collection .list elements) elements := by
  unfold Build.list strictly
  cases constants? elements <;> rfl

theorem build_tuple :
    Build.tuple elements = strictly [] .tuple (.collection .tuple elements) elements := by
  unfold Build.tuple strictly
  cases constants? elements <;> rfl

theorem build_dict :
    Build.dict elements = strictly "dict" .dict (.collection .dict elements) elements := by
  unfold Build.dict strictly
  cases constants? elements <;> rfl

theorem boundConstant?_eq (bound : Option Node) :
    boundConstant? bound = (bound.getD absent).constant? := by
  cases bound <;> rfl

theorem build_sliceObj : Build.sliceObj start stop step =
    strictly [] .bounds (.sliceObj start stop step) ([start, stop, step].map (·.getD absent)) := by
  unfold Build.sliceObj Build.boundConstants? strictly
  simp only [boundConstant?_eq, map_cons, map_nil, constants?]
  cases (start.getD absent).constant? <;> cases (stop.getD absent).constant? <;>
    cases (step.getD absent).constant? <;> rfl

theorem build_slice : Build.slice a start stop step =
    strictly "slice" .slice (.slice a start stop step)
      (a :: [start, stop, step].map (·.getD absent)) := by
  unfold Build.slice Build.boundConstants? strictly
  simp only [boundConstant?_eq, map_cons, map_nil, constants?]
  cases a.constant? <;> cases (start.getD absent).constant? <;>
    cases (stop.getD absent).constant? <;> cases (step.getD absent).constant? <;> rfl

end Strictly

/-! ## Choices -/

section Choices

variable {w : Value}

/-- A test is decided by what a value was in another heap. -/
theorem concur_truthy_left (hlike : Like s k w v) :
    Concur s t (fun _ _ b _ => b = k.heap.truthy v) (Eval.truthy w)
      (Eval.ending (.ok (k.heap.truthy v))) :=
  fun _ _ henv => .ok (.refl s) (.refl t) henv hlike.truthy

theorem builds_cond {test yes no test' yes' no' : Node} (htest : Renders call k test test')
    (hyes : Renders call k yes yes') (hno : Renders call k no no') :
    Builds call k (.cond test yes no) (Build.cond test' yes' no' k.heap) := by
  unfold Build.cond
  cases hv : test'.constant? with
  | none =>
    refine .ok (.refl _) ⟨⟨fun hs ht => ?_⟩, nofun⟩
    unfold eval
    refine concur_bind (htest.means.concur hs ht) fun hs' ht' hlike => ?_
    refine concur_bind (concur_truthy hlike) fun hs'' ht'' htruth => ?_
    obtain rfl := htruth
    split
    · exact hyes.means.concur ((hs.trans hs').trans hs'') ((ht.trans ht').trans ht'')
    · exact hno.means.concur ((hs.trans hs').trans hs'') ((ht.trans ht').trans ht'')
  | some v =>
    have hstands := htest.stands hv
    change Builds call k _ (.ok (if k.heap.truthy v then yes' else no'), k.heap)
    have hchosen : Renders call k (if k.heap.truthy v then yes else no)
        (if k.heap.truthy v then yes' else no') := by
      split
      · exact hyes
      · exact hno
    generalize (if k.heap.truthy v then yes' else no') = chosen at hchosen
    refine .ok (.refl _) ⟨⟨fun hs ht => ?_⟩, hchosen.whole⟩
    rw [eval]
    refine concur_bind_left (hstands.concur hs ht) fun hs' ht' hlike => ?_
    refine concur_bind_left (concur_truthy_left hlike) fun hs'' ht'' htruth => ?_
    -- the test comes out as it did when the choice was made
    rw [htruth, ← apply_ite (eval call)]
    exact hchosen.means.concur ((hs.trans hs').trans hs'') ((ht.trans ht').trans ht'')

/-! ## Short-circuit chains -/

variable {junction : Junction}

theorem prune_ne_nil (h : Heap) (junction : Junction) (hns : ns ≠ []) :
    Build.prune h junction ns ≠ [] := by
  fun_induction Build.prune h junction ns with
  | case1 => exact absurd rfl hns
  | case2 | case3 | case5 => nofun
  | case4 n rest hrest _ ih => exact ih hrest

theorem prune_cons (h : Heap) (junction : Junction) (n : Node) (hns : ns ≠ []) :
    Build.prune h junction (n :: ns) = match Build.decides? h junction n with
      | some true => [n]
      | some false => Build.prune h junction ns
      | none => n :: Build.prune h junction ns := by
  obtain ⟨n', ns, rfl⟩ := exists_cons_of_ne_nil hns
  rfl

/-- Leaving out leading constants first makes no difference. -/
theorem logical_apply (h : Heap) (junction : Junction) (ns : List Node) :
    Build.logical junction ns h = match Build.prune h junction ns with
      | [] => (.error (.compile (.noOperand junction.word)), h)
      | [n] => (.ok n, h)
      | ns => (.ok (.logical junction ns), h) := by
  rw [Build.logical, bind_apply, get_apply]
  dsimp only
  fun_induction Build.dropLeading h junction ns with
  | case1 | case2 => rfl
  | case3 n rest hrest hdecides => simp [Build.prune, hdecides, pure_apply]
  | case4 n rest hrest hdecides ih => simp [Build.prune, hdecides, ih]
  | case5 n rest hrest hdecides =>
    obtain ⟨other, others, hothers⟩ := exists_cons_of_ne_nil (prune_ne_nil h junction hrest)
    obtain ⟨m, rest, rfl⟩ := exists_cons_of_ne_nil hrest
    simp [Build.prune, hdecides, hothers, pure_apply]

theorem evalOperands_cons (call : Caller) (junction : Junction) (m : Node) (hms : ms ≠ []) :
    evalOperands call junction (m :: ms) = (do
      let v ← m.eval call
      if junction.endsWith (← Eval.truthy v) then return v else evalOperands call junction ms) := by
  obtain ⟨m', ms, rfl⟩ := exists_cons_of_ne_nil hms
  rfl

/-- The operands that are left over evaluate like all of them. -/
theorem concur_evalOperands (hall : Forall₂ (Renders call k) ms ns) (hs : k.Keeps s)
    (ht : k.Keeps t) : Concur s t Like (evalOperands call junction ms)
      (evalOperands call junction (Build.prune k.heap junction ns)) := by
  induction hall generalizing s t with
  | nil => exact concur_pure (like_none s t)
  | @cons m n ms ns hfirst hrest ih =>
    by_cases hms : ms = []
    · subst hms
      cases hrest
      exact hfirst.means.concur hs ht
    have hns : ns ≠ [] := fun hns => hms (by subst hns; cases hrest; rfl)
    rw [evalOperands_cons call junction m hms, prune_cons k.heap junction n hns]
    unfold Build.decides?
    cases hv : n.constant? with
    | none =>
      dsimp only [Option.map_none]
      rw [evalOperands_cons call junction n (prune_ne_nil k.heap junction hns)]
      refine concur_bind (hfirst.means.concur hs ht) fun hs' ht' hlike => ?_
      refine concur_bind (concur_truthy hlike) fun hs'' ht'' htruth => ?_
      obtain rfl := htruth
      split
      · exact concur_pure (hlike.keeps hs'' ht'')
      · exact ih ((hs.trans hs').trans hs'') ((ht.trans ht').trans ht'')
    | some v =>
      -- the operand has to end the chain, or not, as the constant does
      have hstands := hfirst.stands hv
      dsimp only [Option.map_some]
      refine concur_bind_left (hstands.concur hs ht) fun hs' ht' hlike => ?_
      refine concur_bind_left (concur_truthy_left hlike) fun hs'' ht'' htruth => ?_
      rw [htruth]
      cases junction.endsWith (k.heap.truthy v) with
      | false => exact ih ((hs.trans hs').trans hs'') ((ht.trans ht').trans ht'')
      | true =>
        obtain ⟨signature, rfl⟩ := eq_const_of_constant? hv
        exact concur_pure ((hlike.keeps hs'' (.refl _)).trans
          (hstands.whole.keeps (.refl _) ((ht.trans ht').trans ht'')))

theorem mem_of_mem_prune (h : Heap) (junction : Junction) (ns : List Node) :
    ∀ n ∈ Build.prune h junction ns, n ∈ ns := by
  fun_induction Build.prune h junction ns with
  | case1 | case2 => exact fun n hn => hn
  | case3 n rest => exact fun m hm => mem_singleton.mp hm ▸ mem_cons_self
  | case4 n rest _ _ ih => exact fun m hm => mem_cons_of_mem n (ih m hm)
  | case5 n rest _ _ ih =>
    rintro m (_ | ⟨_, hm⟩)
    · exact mem_cons_self
    · exact mem_cons_of_mem n (ih m hm)

theorem whole_of_renders (hall : Forall₂ (Renders call k) ms ns) (hn : n ∈ ns)
    (hv : n.constant? = some v) : k.Whole v := by
  induction hall with
  | nil => cases hn
  | cons hfirst _ ih =>
    rcases hn with _ | ⟨_, hn⟩
    · exact hfirst.whole hv
    · exact ih hn

theorem builds_logical (hall : Forall₂ (Renders call k) ms ns) :
    Builds call k (.logical junction ms) (Build.logical junction ns k.heap) := by
  have hconcur : ∀ {s t : Window}, k.Keeps s → k.Keeps t → Concur s t Like
      (evalOperands call junction ms) (evalOperands call junction
        (Build.prune k.heap junction ns)) :=
    fun hs ht => concur_evalOperands hall hs ht
  have hwhole : ∀ n ∈ Build.prune k.heap junction ns, ∀ {v : Value},
      n.constant? = some v → k.Whole v :=
    fun n hn => whole_of_renders hall (mem_of_mem_prune k.heap junction ns n hn)
  rw [logical_apply]
  generalize Build.prune k.heap junction ns = rest at hconcur hwhole
  split
  · exact .error (.refl _) nofun
  · exact .ok (.refl _) ⟨⟨hconcur⟩, hwhole _ mem_cons_self⟩
  · exact .ok (.refl _) ⟨⟨hconcur⟩, nofun⟩

/-! ## Comparisons -/

/-- Compares neighbours until one comparison is false, and gives the last result. -/
def compareAll (result left : Value) : List (CompareOp × Value) → Run Value
  | [] => return result
  | (op, right) :: rest => do
    let result ← Run.compare op left right
    if ← Run.truthy result then compareAll result right rest else return result

theorem compareCode_code (op : CompareOp) (a b : Value) :
    Run.compareCode op.code a b = Run.compare op a b := by
  cases op <;> rfl

theorem compareAll_apply (op : CompareOp) (result left right : Value)
    (rest : List (CompareOp × Value)) (h : Heap) :
    compareAll result left ((op, right) :: rest) h = match Run.compare op left right h with
      | (.ok result, h') =>
        if h'.truthy result then compareAll result right rest h' else (.ok result, h')
      | (.error failure, h') => (.error failure, h') := by
  rw [compareAll, bind_apply]
  rcases Run.compare op left right h with ⟨_ | result, h'⟩
  · rfl
  · change (if h'.truthy result then _ else _ : Run Value) h' = if h'.truthy result then _ else _
    split <;> rfl

theorem foldLinks_cons (op : CompareOp) (result left right : Value) (rest : List (UInt8 × Value)) :
    Build.foldLinks result left ((op.code, right) :: rest) = (do
      let result ← Build.folding op.symbol (Run.compare op left right)
      if ← Run.truthy result then Build.foldLinks result right rest else return result) := by
  rw [Build.foldLinks, compareCode_code]
  cases op <;> rfl

/-- A chain of comparisons fails in building with the symbol of one of its links. -/
theorem foldLinks_apply (links : List (CompareOp × Value)) (result left : Value) (h : Heap) :
    ∃ symbol, Build.foldLinks result left (links.map fun (op, v) => (op.code, v)) h =
      Build.folding symbol (compareAll result left links) h := by
  induction links generalizing result left h with
  | nil => exact ⟨[], rfl⟩
  | cons link rest ih =>
    obtain ⟨op, right⟩ := link
    rw [map_cons, foldLinks_cons, bind_apply]
    simp only [Build.folding_apply, compareAll_apply] at ih ⊢
    rcases Run.compare op left right h with ⟨failure | result, h'⟩
    · exact ⟨op.symbol, rfl⟩
    · change ∃ symbol, (if h'.truthy result then _ else _ : Run Value) h' = _
      dsimp only
      split
      · exact ih result right h'
      · exact ⟨[], rfl⟩

/-- Comparisons that tell values apart by what they are, not by where they are. -/
abbrev Structural (op : CompareOp) : Prop := op ≠ .is ∧ op ≠ .isNot

theorem carries_compareAll {links : List (CompareOp × Value)}
    (hlinks : ∀ link ∈ links, Structural link.1 ∧ k.Whole link.2) (hresult : k.Whole result)
    (hleft : k.Whole left) : k.Carries (compareAll result left links k.heap) := by
  induction links generalizing result left k with
  | nil => exact .ok (.refl _) hresult
  | cons link rest ih =>
    obtain ⟨op, right⟩ := link
    obtain ⟨⟨⟨his, hisNot⟩, hright⟩, hrest⟩ := forall_mem_cons.mp hlinks
    have hcarries := carries_of_agree (agree_compare his hisNot hleft hright)
    rw [compareAll_apply]
    generalize Run.compare op left right k.heap = outcome at hcarries
    cases hcarries with
    | error hk hraised => exact .error hk hraised
    | ok hk hwhole =>
      dsimp only
      split
      · refine .after hk (ih ?_ hwhole (hright.keeps hk.keeps hk.keeps))
        exact fun link hlink => ⟨(hrest link hlink).1, (hrest link hlink).2.keeps hk.keeps hk.keeps⟩
      · exact .ok hk hwhole

/-- The operands of links stand for the values in others. -/
abbrev LinksStand (call : Caller) (k : Window) (links : List (CompareOp × Node))
    (values : List (CompareOp × Value)) : Prop :=
  Forall₂ (fun i l => i.1 = l.1 ∧ Structural l.1 ∧ Stands call k i.2 l.2) links values

variable {values : List (CompareOp × Value)} {result' left' : Value}
  {links' : List (CompareOp × Node)}

theorem LinksStand.keeps (hlinks : LinksStand call k links values) (hkeeps : k.Keeps k') :
    LinksStand call k' links values :=
  hlinks.imp fun _ _ ⟨hop, hstructural, hstands⟩ => ⟨hop, hstructural, hstands.keeps hkeeps⟩

theorem LinksStand.whole (hlinks : LinksStand call k links values) :
    ∀ link ∈ values, Structural link.1 ∧ k.Whole link.2 := by
  induction hlinks with
  | nil => exact forall_mem_nil _
  | cons hfirst _ ih => exact forall_mem_cons.mpr ⟨⟨hfirst.2.1, hfirst.2.2.whole⟩, ih⟩

/-- Links whose operands stand for values come to the end that comparing these comes to. -/
theorem concur_evalLinks_ending (hlinks : LinksStand call k links values)
    (hresult : Like s k result result') (hleft : Like s k left left')
    (hk : k.Becomes (compareAll result' left' values k.heap).2 k') (hs : k'.Keeps s)
    (ht : k'.Keeps t) : Concur s t Like (evalLinks call result left links)
      (Eval.ending (compareAll result' left' values k.heap).1) := by
  induction links generalizing values s t k result left result' left' with
  | nil =>
    cases hlinks
    exact concur_pure (hresult.trans ((hresult.symm.trans hresult).keeps (.refl _)
      (hk.keeps.trans ht)))
  | cons link links ih =>
    obtain ⟨op, n⟩ := link
    obtain _ | @⟨_, ⟨_, right⟩, _, values, ⟨rfl, ⟨his, hisNot⟩, hstands⟩, hrest⟩ := hlinks
    have hcarries : k.Carries (Run.compare op left' right k.heap) :=
      carries_of_agree (agree_compare his hisNot (hleft.symm.trans hleft) hstands.whole)
    have hcompare : ∀ {k₁ s' t' : Window} {w : Value},
        k.Becomes (Run.compare op left' right k.heap).2 k₁ → s.Keeps s' → Like s' k w right →
        k₁.Keeps t' → Concur s' t' Like (Eval.ofRun (Run.compare op left w))
          (Eval.ending (Run.compare op left' right k.heap).1) := fun hk₁ hs' hright ht' =>
      concur_ending (agree_compare his hisNot (hleft.keeps hs' (.refl _)) hright) hcarries hk₁ ht'
    have hs₀ := hk.keeps.trans hs
    have ht₀ := hk.keeps.trans ht
    rw [compareAll_apply] at hk ⊢
    rw [evalLinks]
    generalize Run.compare op left' right k.heap = outcome at hcarries hcompare hk
    refine concur_bind_left (hstands.concur hs₀ ht₀) fun hs₁ ht₁ hw => ?_
    cases hcarries with
    | error hk₁ hraised =>
      obtain rfl := hk₁.unique hk
      exact concur_bind_error (hcompare hk₁ hs₁ hw (ht.trans ht₁))
    | @ok value k₁ hk₁ hwhole =>
      -- comparing goes on from where the first comparison has ended
      have hrest := LinksStand.keeps hrest hk₁.keeps
      have hright := hstands.whole.keeps hk₁.keeps hk₁.keeps
      dsimp only at hk ⊢
      have hk' : k₁.Becomes (if k₁.heap.truthy value then compareAll value right values k₁.heap
          else (.ok value, k₁.heap)).2 k' := by
        by_cases htrue : k₁.heap.truthy value
        · simp only [if_pos htrue] at hk ⊢
          obtain ⟨k₂, hk₂⟩ := (carries_compareAll hrest.whole hwhole hright).exists_becomes
          exact hk.unique (hk₁.trans hk₂) ▸ hk₂
        · simp only [if_neg htrue] at hk ⊢
          exact hk.unique hk₁ ▸ .refl _
      refine concur_bind_left (hcompare hk₁ hs₁ hw (hk'.keeps.trans (ht.trans ht₁)))
        fun hs₂ ht₂ hlike => ?_
      have hvalue := hlike.trans (hwhole.keeps
        (hk'.keeps.trans ((ht.trans ht₁).trans ht₂)) (.refl _))
      refine concur_bind_left (concur_truthy_left hvalue) fun hs₃ ht₃ htruth => ?_
      rw [htruth]
      by_cases htrue : k₁.heap.truthy value
      · simp only [if_pos htrue] at hk' ⊢
        exact ih hrest (hvalue.keeps hs₃ (.refl _)) (hw.keeps (hs₂.trans hs₃) hk₁.keeps) hk'
          (((hs.trans hs₁).trans hs₂).trans hs₃) (((ht.trans ht₁).trans ht₂).trans ht₃)
      · simp only [if_neg htrue]
        exact concur_pure (hlike.keeps hs₃ ht₃)

/-- Links with the same comparisons of operands that evaluate alike evaluate alike. -/
theorem concur_evalLinks
    (hlinks : Forall₂ (fun i l => i.1 = l.1 ∧ Structural l.1 ∧ Means call k i.2 l.2) links links')
    (hresult : Like s t result result') (hleft : Like s t left left') (hs : k.Keeps s)
    (ht : k.Keeps t) :
    Concur s t Like (evalLinks call result left links) (evalLinks call result' left' links') := by
  induction hlinks generalizing s t result left result' left' with
  | nil => exact concur_pure hresult
  | @cons i l _ _ hfirst _ ih =>
    obtain ⟨op, n⟩ := i
    obtain ⟨_, n'⟩ := l
    obtain ⟨rfl, ⟨his, hisNot⟩, hmeans⟩ := hfirst
    rw [evalLinks, evalLinks]
    refine concur_bind (hmeans.concur hs ht) fun hs₁ ht₁ hright => ?_
    refine concur_bind (concur_ofRun (agree_compare his hisNot (hleft.keeps hs₁ ht₁) hright))
      fun hs₂ ht₂ hvalue => ?_
    refine concur_bind (concur_truthy hvalue) fun hs₃ ht₃ htruth => ?_
    obtain rfl := htruth
    split
    · exact ih (hvalue.keeps hs₃ ht₃) (hright.keeps (hs₂.trans hs₃) (ht₂.trans ht₃))
        (((hs.trans hs₁).trans hs₂).trans hs₃) (((ht.trans ht₁).trans ht₂).trans ht₃)
    · exact concur_pure (hvalue.keeps hs₃ ht₃)

theorem ofCode?_code (op : CompareOp) : CompareOp.ofCode? op.code = some op := by
  cases op <;> rfl

theorem mapM_ofCode? (links : List (CompareOp × Node)) :
    ((links.map fun (op, n) => (op.code, n)).mapM fun (code, n) =>
      (CompareOp.ofCode? code).map (·, n)) = some links := by
  induction links with
  | nil => rfl
  | cons link rest ih => simp [ofCode?_code, ih]

/-- Building a comparison from the numbers of its links gives the links back. -/
theorem compare_eq (subject : Node) (hlinks : links ≠ []) :
    Build.compare subject links = match subject.constant?, constants? (links.map Prod.snd) with
      | some v, some operands => do
        Build.const (← Build.foldLinks (.bool true) v
          (((links.map Prod.fst).zip operands).map fun (op, v) => (op.code, v)))
      | _, _ => return .compare subject links := by
  obtain ⟨link, rest, rfl⟩ := exists_cons_of_ne_nil hlinks
  unfold Build.compare Build.compareCodes
  rw [mapM_ofCode?]
  have hsnd : ((link :: rest).map fun (op, n) => (op.code, n)).map Prod.snd =
      (link :: rest).map Prod.snd := by
    simp [Function.comp_def]
  have hfst : ((link :: rest).map fun (op, n) => (op.code, n)).map Prod.fst =
      ((link :: rest).map Prod.fst).map CompareOp.code := by
    simp [Function.comp_def]
  rw [hsnd, hfst]
  simp only [zip_map_left]
  rfl

theorem linksStand_of_constants {operands : List Value}
    (hlinks : Forall₂ (fun i l => i.1 = l.1 ∧ Structural l.1 ∧ Renders call k i.2 l.2) links links')
    (hconstants : constants? (links'.map Prod.snd) = some operands) :
    LinksStand call k links ((links'.map Prod.fst).zip operands) := by
  induction hlinks generalizing operands with
  | nil => exact .nil
  | cons hfirst _ ih =>
    rw [map_cons, constants?] at hconstants
    split at hconstants <;> cases hconstants
    next hv hrest => exact .cons ⟨hfirst.1, hfirst.2.1, hfirst.2.2.stands hv⟩ (ih hrest)

theorem builds_compare {subject subject' : Node} (hsubject : Renders call k subject subject')
    (hlinks : Forall₂ (fun i l => i.1 = l.1 ∧ Structural l.1 ∧
      Renders call k i.2 l.2) links links') :
    Builds call k (.compare subject links) (Build.compare subject' links' k.heap) := by
  by_cases hne : links' = []
  · subst hne
    exact .error (.refl _) (by rintro _ _ ⟨⟩)
  rw [compare_eq subject' hne]
  split
  next v operands hv hoperands =>
    have hstand := linksStand_of_constants hlinks hoperands
    have hvalue := hsubject.stands hv
    have hcarries := carries_compareAll hstand.whole (like_bool k k true) hvalue.whole
    obtain ⟨symbol, hfold⟩ := foldLinks_apply ((links'.map Prod.fst).zip operands)
      (.bool true) v k.heap
    rw [bind_apply, hfold, ← bind_apply]
    refine builds_folded symbol hcarries fun hk => ⟨fun hs ht => ?_⟩
    rw [eval]
    refine concur_bind_left (hvalue.concur (hk.keeps.trans hs) (hk.keeps.trans ht))
      fun hs' ht' hlike => ?_
    exact concur_evalLinks_ending hstand (like_bool _ _ true) hlike hk (hs.trans hs') (ht.trans ht')
  next =>
    refine .ok (.refl _) ⟨⟨fun hs ht => ?_⟩, fun hv => by cases hv⟩
    rw [eval, eval]
    refine concur_bind (hsubject.means.concur hs ht) fun hs' ht' hlike => ?_
    refine concur_evalLinks (hlinks.imp fun _ _ hlink => ?_)
      (like_bool _ _ true) hlike (hs.trans hs') (ht.trans ht')
    exact ⟨hlink.1, hlink.2.1, hlink.2.2.means⟩

/-! ## Steps -/

theorem renders_store (name : Text) (hmn : Renders call k m n) :
    Renders call k (.store name m) (.store name n) := by
  refine ⟨⟨fun hs ht => ?_⟩, nofun⟩
  rw [eval, eval]
  refine concur_bind (hmn.means.concur hs ht) fun _ _ hlike env env' henv => ?_
  exact .ok (.refl _) (.refl _) (henv.set hlike name) (like_none _ _)

theorem concur_evalSteps (hall : Forall₂ (Means call k) ms ns) (hs : k.Keeps s)
    (ht : k.Keeps t) : Concur s t Like (evalSteps call ms) (evalSteps call ns) := by
  induction hall generalizing s t with
  | nil => exact concur_pure (like_none s t)
  | cons hfirst hrest ih =>
    cases hrest with
    | nil => exact hfirst.concur hs ht
    | cons _ _ =>
      exact concur_bind (hfirst.concur hs ht) fun hs' ht' _ => ih (hs.trans hs') (ht.trans ht')

theorem builds_sequence (hall : Forall₂ (Renders call k) ms ns) :
    Builds call k (.sequence ms) (Build.sequence ns k.heap) := by
  have hconcur : ∀ {s t : Window}, k.Keeps s → k.Keeps t →
      Concur s t Like (evalSteps call ms) (evalSteps call ns) :=
    fun hs ht => concur_evalSteps (hall.imp fun _ _ hmn => hmn.means) hs ht
  unfold Build.sequence
  split
  · exact .error (.refl _) nofun
  · exact .ok (.refl _) ⟨⟨hconcur⟩, whole_of_renders hall mem_cons_self⟩
  · exact .ok (.refl _) ⟨⟨hconcur⟩, nofun⟩

end Choices

/-! ## Whole expressions -/

/-- An operand for one that may be left out, and the operands after it. -/
def refill : Option Node → List Node → Option Node × List Node
  | none, parts => (none, parts)
  | some _, parts => (parts.head?, parts.tail)

/-- Builds an expression of the same form from other operands. Calls, attributes and transfers are
none of what is built here. -/
def rebuild : Node → List Node → Run Node
  | .const v _, _ => Build.const v
  | .unary op _, [a] => Build.unary op a
  | .binary op _ _, [a, b] => Build.binary op a b
  | .compare _ links, subject :: operands =>
    Build.compare subject ((links.map Prod.fst).zip operands)
  | .logical junction _, operands => Build.logical junction operands
  | .cond _ _ _, [test, yes, no] => Build.cond test yes no
  | .collection .list _, elements => Build.list elements
  | .collection .tuple _, elements => Build.tuple elements
  | .collection .dict _, elements => Build.dict elements
  | .subscript _ _, [base, index] => Build.subscript base index
  | .sliceObj start stop step, parts =>
    let a := refill start parts
    let b := refill stop a.2
    Build.sliceObj a.1 b.1 (refill step b.2).1
  | .slice _ start stop step, base :: parts =>
    let a := refill start parts
    let b := refill stop a.2
    Build.slice base a.1 b.1 (refill step b.2).1
  | .store name _, [v] => return .store name v
  | .sequence _, steps => Build.sequence steps
  | n, _ => return n

/-- Builds an expression bottom up. -/
def fold (n : Node) : Run Node := do
  n.rebuild (← n.children.attach.mapM fun ⟨m, _⟩ => m.fold)
termination_by sizeOf n
decreasing_by exact sizeOf_lt_of_mem_children (by assumption)

theorem fold_eq (n : Node) : n.fold = n.children.mapM fold >>= n.rebuild := by
  rw [fold, mapM_subtype (g := fold) (fun _ _ => rfl), unattach_attach]

/-- Neither attributes, calls nor transfers are built here, and comparisons tell values apart by
what they are. -/
def Foldable : Node → Prop
  | .attr _ _ | .call _ _ _ _ _ _ | .next _ => False
  | .compare _ links => ∀ link ∈ links, Structural link.1
  | _ => True

instance : DecidablePred Foldable
  | .attr _ _ | .call _ _ _ _ _ _ | .next _ => isFalse id
  | .compare _ links => inferInstanceAs (Decidable (∀ link ∈ links, Structural link.1))
  | .const _ _ | .var _ | .unary _ _ | .binary _ _ _ | .logical _ _ | .cond _ _ _ | .collection _ _
  | .subscript _ _ | .sliceObj _ _ _ | .slice _ _ _ _ | .store _ _ | .sequence _ => isTrue trivial

theorem refill_rel {R : Node → Node → Prop} (h : Forall₂ R (bound.toList ++ ms) parts) :
    Option.Rel R bound (refill bound parts).1 ∧ Forall₂ R ms (refill bound parts).2 := by
  cases bound with
  | none => exact ⟨.none, h⟩
  | some n =>
    obtain _ | ⟨hfirst, hrest⟩ := h
    exact ⟨.some hfirst, hrest⟩

/-- A bound that is left out stands for the value that it has then. -/
theorem renders_bound {bound' : Option Node} (hbound : Option.Rel (Renders call k) bound bound') :
    Renders call k (bound.getD absent) (bound'.getD absent) := by
  cases hbound with
  | some hrenders => exact hrenders
  | none =>
    refine ⟨⟨fun _ _ => concur_pure (like_none _ _)⟩, fun hv => ?_⟩
    cases hv
    exact like_none _ _

theorem renders_bounds {start stop step : Option Node}
    (hparts : Forall₂ (Renders call k) (present [start, stop, step]) parts) :
    let a := refill start parts
    let b := refill stop a.2
    Forall₂ (Renders call k) ([start, stop, step].map (·.getD absent))
      ([a.1, b.1, (refill step b.2).1].map (·.getD absent)) := by
  simp only [present_cons] at hparts
  obtain ⟨hstart, hparts⟩ := refill_rel hparts
  obtain ⟨hstop, hparts⟩ := refill_rel hparts
  obtain ⟨hstep, _⟩ := refill_rel hparts
  exact .cons (renders_bound hstart) (.cons (renders_bound hstop)
    (.cons (renders_bound hstep) .nil))

theorem renders_links {operands : List Node} (hops : ∀ link ∈ links, Structural link.1)
    (hoperands : Forall₂ (Renders call k) (links.map Prod.snd) operands) :
    Forall₂ (fun i l => i.1 = l.1 ∧ Structural l.1 ∧ Renders call k i.2 l.2) links
      ((links.map Prod.fst).zip operands) := by
  induction links generalizing operands with
  | nil => exact .nil
  | cons link rest ih =>
    obtain _ | ⟨hfirst, hrest⟩ := hoperands
    obtain ⟨hop, hops⟩ := forall_mem_cons.mp hops
    exact .cons ⟨rfl, hop, hfirst⟩ (ih hops hrest)

/-- Building from operands that have been built keeps the meaning. -/
theorem builds_rebuild (hm : m.Foldable) (hconst : ∀ v, m.constant? = some v → k.Whole v)
    (hparts : Forall₂ (Renders call k) m.children parts) :
    Builds call k m (m.rebuild parts k.heap) := by
  cases m with
  | const v signature =>
    have hwhole := hconst v rfl
    refine builds_const (.refl _) ⟨⟨fun hs ht => ?_⟩, hwhole⟩
    exact concur_pure (hwhole.keeps hs ht)
  | var name => exact .ok (.refl _) ⟨⟨fun _ _ => concur_name name⟩, nofun⟩
  | unary op a =>
    obtain _ | ⟨ha, ⟨⟩⟩ := hparts
    rw [rebuild, build_unary]
    exact builds_strictly _ rfl rfl (.cons ha .nil)
  | binary op a b =>
    obtain _ | ⟨ha, _ | ⟨hb, ⟨⟩⟩⟩ := hparts
    rw [rebuild, build_binary]
    exact builds_strictly _ rfl rfl (.cons ha (.cons hb .nil))
  | compare subject links =>
    obtain _ | ⟨hsubject, hoperands⟩ := hparts
    exact builds_compare hsubject (renders_links hm hoperands)
  | logical junction operands => exact builds_logical hparts
  | cond test yes no =>
    obtain _ | ⟨htest, _ | ⟨hyes, _ | ⟨hno, ⟨⟩⟩⟩⟩ := hparts
    exact builds_cond htest hyes hno
  | collection kind elements =>
    cases kind with
    | list =>
      rw [rebuild, build_list]
      exact builds_strictly _ rfl rfl hparts
    | tuple =>
      rw [rebuild, build_tuple]
      exact builds_strictly _ rfl rfl hparts
    | dict =>
      rw [rebuild, build_dict]
      exact builds_strictly _ rfl rfl hparts
  | subscript base index =>
    obtain _ | ⟨hbase, _ | ⟨hindex, ⟨⟩⟩⟩ := hparts
    rw [rebuild, build_subscript]
    exact builds_strictly _ rfl rfl (.cons hbase (.cons hindex .nil))
  | sliceObj start stop step =>
    rw [rebuild, build_sliceObj]
    exact builds_strictly _ rfl rfl (renders_bounds hparts)
  | slice base start stop step =>
    obtain _ | ⟨hbase, hbounds⟩ := hparts
    rw [rebuild, build_slice]
    exact builds_strictly _ rfl rfl (.cons hbase (renders_bounds hbounds))
  | attr | call | next => exact hm.elim
  | store name value =>
    obtain _ | ⟨hvalue, ⟨⟩⟩ := hparts
    exact .ok (.refl _) (renders_store name hvalue)
  | sequence steps => exact builds_sequence hparts

/-- If building fails at an operation on constants, its operands have all been built, and evaluating
it fails with the same cause. -/
structure FailsAt (call : Caller) (m : Node) (operation : Text) (cause : RuntimeError)
    (k : Window) : Prop where
  built : ∃ h₁ parts h₂, m.children.mapM fold h₁ = (.ok parts, h₂) ∧
    m.rebuild parts h₂ = (.error (.error (.fold operation cause)), k.heap)
  ends : Ends call k m (.error (.error (.runtime cause)))

/-- What comes of building an expression bottom up. -/
abbrev Folds (call : Caller) (k : Window) (m : Node) : Except Failure Node × Heap → Prop :=
  Comes k (Renders call · m) fun k' operation cause =>
    ∃ n ∈ m.subexpressions, FailsAt call n operation cause k'

/-- What comes of building expressions one after the other. -/
abbrev FoldsAll (call : Caller) (k : Window) (ms : List Node) :
    Except Failure (List Node) × Heap → Prop :=
  Comes k (fun k' => Forall₂ (Renders call k') ms) fun k' operation cause =>
    ∃ n ∈ ms.flatMap subexpressions, FailsAt call n operation cause k'

theorem foldsAll_of_folds (hms : ∀ m ∈ ms, ∀ k : Window, (∀ v ∈ m.constants, k.Whole v) →
      Folds call k m (m.fold k.heap)) (hwhole : ∀ m ∈ ms, ∀ v ∈ m.constants, k.Whole v) :
    FoldsAll call k ms (ms.mapM fold k.heap) := by
  induction ms generalizing k with
  | nil => exact .ok (.refl _) .nil
  | cons m ms ih =>
    obtain ⟨hfirst, hrest⟩ := forall_mem_cons.mp hms
    obtain ⟨hwholeFirst, hwholeRest⟩ := forall_mem_cons.mp hwhole
    have hfolds := hfirst k hwholeFirst
    rw [mapM_cons, bind_apply]
    generalize m.fold k.heap = outcome at hfolds
    cases hfolds with
    | error hk hfails =>
      refine .error hk fun hfailure => ?_
      obtain ⟨n, hn, hat⟩ := hfails hfailure
      exact ⟨n, mem_append_left _ hn, hat⟩
    | @ok n k' hk hrenders =>
      have hall := ih hrest fun m hm v hv => (hwholeRest m hm v hv).keeps hk.keeps hk.keeps
      dsimp only
      rw [bind_apply]
      generalize ms.mapM fold k'.heap = outcome at hall
      cases hall with
      | ok hk' hall => exact .ok (hk.trans hk') (.cons (hrenders.keeps hk'.keeps) hall)
      | error hk' hfails =>
        refine .error (hk.trans hk') fun hfailure => ?_
        obtain ⟨n, hn, hat⟩ := hfails hfailure
        exact ⟨n, mem_append_right _ hn, hat⟩

/-- Building bottom up keeps the meaning. -/
theorem folds_fold (call : Caller) (m : Node) (hm : m.Everywhere Foldable) (k : Window)
    (hwhole : ∀ v ∈ m.constants, k.Whole v) : Folds call k m (m.fold k.heap) := by
  induction m using descent generalizing k with
  | h m ih _ =>
  obtain ⟨hroot, hbelow⟩ := everywhere_iff.mp hm
  rw [constants_eq, forall_mem_append, forall_mem_flatMap] at hwhole
  have hall := foldsAll_of_folds (fun n hn k' hk' => ih n hn (hbelow n hn) k' hk') hwhole.2
  rw [fold_eq, bind_apply]
  generalize hparts : m.children.mapM fold k.heap = outcome at hall
  cases hall with
  | error hk hfails =>
    refine .error hk fun hfailure => ?_
    obtain ⟨n, hn, hat⟩ := hfails hfailure
    exact ⟨n, subexpressions_eq m ▸ mem_cons_of_mem m hn, hat⟩
  | @ok parts k' hk hall =>
    have hconst : ∀ v, m.constant? = some v → k'.Whole v := fun v hv =>
      (hwhole.1 v (hv ▸ mem_singleton_self v)).keeps hk.keeps hk.keeps
    have hbuilds := builds_rebuild hroot hconst hall
    dsimp only
    generalize hrebuild : m.rebuild parts k'.heap = outcome at hbuilds
    cases hbuilds with
    | ok hk' hrenders => exact .ok (hk.trans hk') hrenders
    | error hk' hends =>
      refine .error (hk.trans hk') fun hfailure => ?_
      refine ⟨m, subexpressions_eq m ▸ mem_cons_self, ⟨k.heap, parts, k'.heap, hparts, ?_⟩,
        hends hfailure⟩
      rw [hrebuild, hfailure]

/-- All of the values of names is in the heap. -/
def EvalWhole (σ : EvalState) : Prop :=
  ∀ name v, σ.environment.get? name = some v → σ.heap.window.Whole v

theorem EvalWhole.likeEnv {σ : EvalState} (hσ : EvalWhole σ) :
    LikeEnv σ.heap.window σ.heap.window σ.environment σ.environment := by
  intro name
  cases hname : σ.environment.get? name with
  | none => exact .none
  | some v => exact .some (hσ name v hname)

/-- Expressions that are built bottom up evaluate like the expressions as they were written: in
every environment, to values that are alike or with the same failure, and the environments that they
leave are alike. Until then only cells may change that were out of sight, while all of the constants
was in sight. If building fails at an operation on constants, then the subexpression with this
operation, whose operands have been built, fails with the same cause in every environment. -/
theorem eval_fold_concurs (call : Caller) (m : Node) (k : Window) (hm : m.Everywhere Foldable)
    (hconstants : ∀ v ∈ m.constants, k.Whole v) :
    (∀ n h', m.fold k.heap = (.ok n, h') → ∃ k', k.Becomes h' k' ∧ ∀ σ : EvalState,
      k'.Keeps σ.heap.window → EvalWhole σ →
        Concurs σ.heap.window σ.heap.window Like (m.eval call σ) (n.eval call σ)) ∧
    ∀ operation cause h', m.fold k.heap = (.error (.error (.fold operation cause)), h') →
      ∃ k', k.Becomes h' k' ∧ ∃ n ∈ m.subexpressions,
        (∃ h₁ parts h₂, n.children.mapM fold h₁ = (.ok parts, h₂) ∧
          n.rebuild parts h₂ = (.error (.error (.fold operation cause)), h')) ∧
        ∀ σ : EvalState, k'.Keeps σ.heap.window → EvalWhole σ →
          (n.eval call σ).1 = .error (.error (.runtime cause)) := by
  have hfolds := folds_fold call m hm k hconstants
  constructor
  · intro n h' hfold
    rw [hfold] at hfolds
    cases hfolds with
    | ok hk hrenders =>
      refine ⟨_, hk, fun σ hkeeps hσ => ?_⟩
      exact hrenders.means.concur hkeeps hkeeps σ.environment σ.environment hσ.likeEnv
  · intro operation cause h' hfold
    rw [hfold] at hfolds
    cases hfolds with
    | error hk hfails =>
      obtain ⟨n, hn, hbuilt, hends⟩ := hfails rfl
      refine ⟨_, hk, n, hn, hbuilt, fun σ hkeeps hσ => ?_⟩
      have hconcurs := hends.concur hkeeps hkeeps σ.environment σ.environment hσ.likeEnv
      change Concurs _ _ Like (n.eval call σ) (.error (.error (.runtime cause)), σ) at hconcurs
      generalize n.eval call σ = outcome at hconcurs
      cases hconcurs with
      | error => rfl

/-- A choice by a constant between a sum with a product of constants and a name. -/
def choosing : Node :=
  .cond (.const (.bool true) "True")
    (.binary .add (.var "x") (.binary .mul (.const (.int 2) "2") (.const (.int 3) "3"))) (.var "y")

def dividing : Node :=
  .collection .list [.var "x", .binary .div (.const (.int 1) "1") (.const (.int 0) "0")]

theorem fold_choosing (h : Heap) : choosing.fold h =
    (.ok (.binary .add (.var "x") (.const (.int 6) (h.signature (.int 6)))), h) := by
  simp only [choosing, fold_eq, children, mapM_cons, mapM_nil, pure_bind, bind_assoc]
  rfl

theorem fold_dividing (h : Heap) : dividing.fold h =
    (.error (.error (.fold "/" (.division .quotient))), h) := by
  simp only [dividing, fold_eq, children, mapM_cons, mapM_nil, pure_bind, bind_assoc]
  rfl

theorem whole_choosing (k : Window) : ∀ v ∈ choosing.constants, k.Whole v := by
  have hconstants : choosing.constants = [.bool true, .int 2, .int 3] := rfl
  rw [hconstants]
  rintro v (_ | ⟨_, _ | ⟨_, _ | ⟨_, ⟨⟩⟩⟩⟩)
  · exact like_bool _ _ true
  · exact like_int _ _ 2
  · exact like_int _ _ 3

theorem whole_dividing (k : Window) : ∀ v ∈ dividing.constants, k.Whole v := by
  have hconstants : dividing.constants = [.int 1, .int 0] := rfl
  rw [hconstants]
  rintro v (_ | ⟨_, _ | ⟨_, ⟨⟩⟩⟩)
  · exact like_int _ _ 1
  · exact like_int _ _ 0

/-- A list that is out of sight. -/
def aside : Window := ⟨{ cells := #[.list #[]] }, (· = 0), fun h => h ▸ Nat.one_pos⟩

/-- The list has grown, and a name has a value. -/
def later : EvalState := ⟨{ cells := #[.list #[.int 1]] }, ({} : Bindings).set "x" (.int 7)⟩

theorem aside_keeps_later : aside.Keeps later.heap.window := by
  refine ⟨fun {r cell} hr => absurd ?_ hr.2⟩
  have hlt := (Array.getElem?_eq_some_iff.mp hr.1).1
  exact Nat.lt_one_iff.mp hlt

theorem evalWhole_later : EvalWhole later := by
  intro name v hname
  change (({} : Bindings).set "x" (.int 7)).get? name = some v at hname
  rw [Bindings.get?_set] at hname
  split at hname
  · cases hname
    exact like_int _ _ 7
  · cases hname

theorem eval_fold_concurs_choosing :
    (choosing.Everywhere Foldable ∧ Concurs later.heap.window later.heap.window Like
      (choosing.eval (fun _ _ _ => Run.stop .stackUnderflow) later)
      ((Node.binary .add (.var "x") (.const (.int 6) (aside.heap.signature (.int 6)))).eval
        (fun _ _ _ => Run.stop .stackUnderflow) later)) ∧
    dividing.Everywhere Foldable ∧ ∃ n ∈ dividing.subexpressions,
      (n.eval (fun _ _ _ => Run.stop .stackUnderflow) later).1 =
        .error (.error (.runtime (.division .quotient))) := by
  have hchoosing : choosing.Everywhere Foldable := by decide
  have hdividing : dividing.Everywhere Foldable := by decide
  refine ⟨⟨hchoosing, ?_⟩, hdividing, ?_⟩
  · obtain ⟨k, hk, hconcurs⟩ := (eval_fold_concurs (fun _ _ _ => Run.stop .stackUnderflow) choosing
      aside hchoosing (whole_choosing aside)).1 _ _ (fold_choosing aside.heap)
    obtain rfl := hk.unique (.refl aside)
    exact hconcurs later aside_keeps_later evalWhole_later
  · obtain ⟨k, hk, n, hn, -, hfails⟩ := (eval_fold_concurs (fun _ _ _ => Run.stop .stackUnderflow)
      dividing aside hdividing (whole_dividing aside)).2 _ _ _ (fold_dividing aside.heap)
    obtain rfl := hk.unique (.refl aside)
    exact ⟨n, hn, hfails later aside_keeps_later evalWhole_later⟩

/-- A choice by a dictionary. -/
def choosingByDict : Node :=
  .cond (.const (.dict 0) "dict") (.const (.int 1) "int:1") (.const (.int 2) "int:2")

/-- A constant is not to change after building. A choice by an empty dictionary is made when it is
built, and stays as it is when the dictionary has an entry. -/
theorem eval_fold_outdated :
    let h : Heap := { cells := #[.dict .empty] }
    let σ : EvalState := ⟨(Run.setItem (.dict 0) (.str "k") (.int 1) h).2, {}⟩
    choosingByDict.Everywhere Foldable ∧ EvalWhole σ ∧ ∃ n, choosingByDict.fold h = (.ok n, h) ∧
      (choosingByDict.eval (fun _ _ _ => Run.stop .stackUnderflow) σ).1 = .ok (.int 1) ∧
      (n.eval (fun _ _ _ => Run.stop .stackUnderflow) σ).1 = .ok (.int 2) := by
  intro h σ
  refine ⟨by decide, fun name v hname => absurd hname.symm (Option.some_ne_none v),
    .const (.int 2) (h.signature (.int 2)), ?_, rfl, rfl⟩
  simp only [choosingByDict, fold_eq, children, mapM_cons, mapM_nil, pure_bind, bind_assoc]
  rfl

end Node

end ExprBackend
