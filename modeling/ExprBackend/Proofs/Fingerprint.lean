import ExprBackend.Dispatch.Digest
import ExprBackend.Proofs.Annotation
import ExprBackend.Proofs.Interpretation
import ExprBackend.Proofs.Signature

/-! # What the signatures of actions determine

Two action tables with the same signatures have actions that match, so their code
is emitted alike, step for step. The code refers to constants by their places in
the pool, where identical constants share a place. Signatures do not tell whether
two tuples that are written alike are one tuple: if that is the same in both tables
too, so are the code, the jump tables, the names of the locals and the height of
the stack.
-/

namespace ExprBackend

open List

/-! ## Buffers that are filled alike -/

variable {T : Value → Value → Prop} {c c' : Code} {d : Int} {g g' h : Heap} {marks marks' : Marks}
  {name : Text} {p : Program} {params : List Text} {root v v' : Value} {t t' : ActionTable}

/-- A correspondence of constants under which they are shared alike. -/
def Shares (T : Value → Value → Prop) : Prop :=
  ∀ v v' w w', T v v' → T w w' → v.identical w = v'.identical w'

variable {r s r' s' : Nat}

/-- Constants that are shared alike are found in the same place. -/
theorem Shares.findIdx?_eq (hT : Shares T) (hv : T v v') {pool pool' : Array Value}
    (hpool : Forall₂ T pool.toList pool'.toList) :
    pool.findIdx? (·.identical v) = pool'.findIdx? (·.identical v') := by
  obtain ⟨pool⟩ := pool
  obtain ⟨pool'⟩ := pool'
  rw [findIdx?_toArray, findIdx?_toArray]
  change Forall₂ T pool pool' at hpool
  induction hpool with
  | nil => rfl
  | cons hfirst _ ih => rw [findIdx?_cons, findIdx?_cons, hT _ _ _ _ hfirst hv, ih]

namespace Code

variable {c₁ c₁' : Code}

/-- Two buffers without interceptor that differ at most in their constants, which correspond. -/
structure Parallel (T : Value → Value → Prop) (c c' : Code) : Prop where
  name : c'.name = c.name
  locals : c'.locals = c.locals
  body : c'.body = c.body
  prologue : c'.prologue = c.prologue
  labels : c'.labels = c.labels
  namedLabels : c'.namedLabels = c.namedLabels
  tables : c'.tables = c.tables
  depth : c'.depth = c.depth
  maxDepth : c'.maxDepth = c.maxDepth
  reachable : c'.reachable = c.reachable
  plain : c.interceptor = none ∧ c'.interceptor = none
  pool : Forall₂ T c.chunk.constants.toList c'.chunk.constants.toList

namespace Parallel

theorem label? (h : c.Parallel T c') (l : Label) : c'.label? l = c.label? l :=
  label?_of_labels_eq h.labels l

theorem slot? (h : c.Parallel T c') (name : Text) : c'.slot? name = c.slot? name := by
  rw [Code.slot?, Code.slot?, h.locals]

theorem appended (h : c.Parallel T c') (op : Opcode) (operand change : Int) :
    (c.appended op operand change).Parallel T (c'.appended op operand change) :=
  { h with
    body := by rw [appended_body, appended_body, h.body]
    depth := by rw [appended_depth, appended_depth, h.depth]
    maxDepth := by rw [appended_maxDepth, appended_maxDepth, h.depth, h.maxDepth] }

theorem pooled (hT : Shares T) (h : c.Parallel T c') (hv : T v v') :
    c'.constantIndex v' = c.constantIndex v ∧ (c.pooled v).Parallel T (c'.pooled v') := by
  have hplace := hT.findIdx?_eq hv h.pool
  have hsize : c.chunk.constants.size = c'.chunk.constants.size := h.pool.length_eq
  rw [constantIndex, constantIndex, Chunk.place, Chunk.place, ← hplace]
  cases hfound : c.chunk.constants.findIdx? (·.identical v) with
  | some i =>
    refine ⟨rfl, { h with pool := ?_ }⟩
    rw [pooled_chunk, pooled_chunk, Chunk.addConstant, Chunk.addConstant, ← hplace, hfound]
    exact h.pool
  | none =>
    refine ⟨hsize.symm, { h with pool := ?_ }⟩
    rw [pooled_chunk, pooled_chunk, Chunk.addConstant, Chunk.addConstant, ← hplace, hfound]
    simp only [Array.toList_push]
    exact rel_append h.pool (.cons hv .nil)

theorem declared (h : c.Parallel T c') (name : Text) :
    c'.declaredSlot name = c.declaredSlot name ∧
    (c.declared name).Parallel T (c'.declared name) := by
  rw [declaredSlot, declaredSlot, Code.declared, Code.declared, declare, declare, h.slot?]
  cases c.slot? name with
  | some slot => exact ⟨rfl, h⟩
  | none =>
    rw [h.locals]
    exact ⟨rfl, { h with locals := rfl }⟩

theorem labelled (h : c.Parallel T c') : c.labelled.Parallel T c'.labelled :=
  { h with labels := by rw [labelled_labels, labelled_labels, h.labels] }

theorem named (h : c.Parallel T c') (name : Text) (l : Label) :
    ({ c with namedLabels := (name, l) :: c.namedLabels } : Code).Parallel T
      { c' with namedLabels := (name, l) :: c'.namedLabels } :=
  { h with namedLabels := by rw [h.namedLabels] }

theorem withLabel (h : c.Parallel T c') (l : Label) (info : LabelInfo) :
    (c.withLabel l info).Parallel T (c'.withLabel l info) :=
  { h with labels := by rw [withLabel_labels, withLabel_labels, h.labels] }

theorem marked (h : c.Parallel T c') (l : Label) (info : LabelInfo) :
    (c.marked l info).Parallel T (c'.marked l info) :=
  { h with
    labels := by rw [marked_labels, marked_labels, h.labels, h.body, h.reachable, h.depth]
    depth := by rw [marked_depth, marked_depth, h.reachable, h.depth]
    reachable := by rw [marked_reachable, marked_reachable, h.reachable] }

theorem tabled (h : c.Parallel T c') (t : TableSpec) : (c.tabled t).Parallel T (c'.tabled t) :=
  { h with tables := by rw [tabled_tables, tabled_tables, h.tables] }

theorem ended (h : c.Parallel T c') : c.ended.Parallel T c'.ended := { h with reachable := rfl }

theorem noted (h : c.Parallel T c') (emitting emitting' : List LazySignature)
    (events events' : Array Event) (observations observations' : Array Observation) :
    (c.noted emitting events observations).Parallel T (c'.noted emitting' events' observations') :=
  { h with }

theorem branches (h : c.Parallel T c') {l : Label} (hbranch : c.Branches l d c₁)
    (hbranch' : c'.Branches l d c₁') : c₁.Parallel T c₁' := by
  cases hbranch with
  | dead hdead =>
    cases hbranch' with
    | dead _ | backward _ _ _ _ _ => exact h
    | forward hlive => rw [h.reachable, hdead] at hlive; cases hlive
  | backward hlive hinfo hplaced =>
    cases hbranch' with
    | dead _ | backward _ _ _ _ _ => exact h
    | forward _ hinfo' hopen =>
      rw [h.label?, hinfo] at hinfo'
      cases hinfo'
      rw [hopen] at hplaced
      cases hplaced
  | forward hlive hinfo hopen =>
    cases hbranch' with
    | dead hdead => rw [h.reachable, hlive] at hdead; cases hdead
    | backward _ hinfo' hplaced =>
      rw [h.label?, hinfo] at hinfo'
      cases hinfo'
      rw [hopen] at hplaced
      cases hplaced
    | forward _ hinfo' _ =>
      rw [h.label?, hinfo] at hinfo'
      cases hinfo'
      exact h.withLabel l _

theorem branchesAll (h : c.Parallel T c') {ls : List Label} (hall : BranchesAll d c ls c₁)
    (hall' : BranchesAll d c' ls c₁') : c₁.Parallel T c₁' := by
  induction hall generalizing c' with
  | nil =>
    cases hall' with
    | nil => exact h
  | skip _ ih =>
    cases hall' with
    | skip hrest => exact ih h hrest
    | cons hne _ _ => exact absurd rfl hne
  | cons hne hbranch _ ih =>
    cases hall' with
    | skip _ => exact absurd rfl hne
    | cons _ hbranch' hrest => exact ih (h.branches hbranch hbranch') hrest

end Parallel

end Code

/-! ## Emissions side by side -/

namespace Emit

section Abreast

variable {α β : Type} {ns ms : List Node}

/-- Two emissions that succeed in buffers that are filled alike give the same and fill them alike.
-/
def Abreast (T : Value → Value → Prop) (x y : Emit α) : Prop :=
  ∀ ⦃marks marks' : Marks⦄ ⦃c c' : Code⦄ ⦃a a' : α⦄ ⦃d d' : Code⦄, c.Parallel T c' →
    x.Yields marks c a d → y.Yields marks' c' a' d' → a = a' ∧ d.Parallel T d'

theorem abreast_pure (a : α) : Abreast T (pure a) (pure a) := by
  intro marks marks' c c' b b' d d' h hx hy
  obtain ⟨rfl, rfl⟩ := yields_pure.mp hx
  obtain ⟨rfl, rfl⟩ := yields_pure.mp hy
  exact ⟨rfl, h⟩

theorem abreast_bind {x y : Emit α} {f g : α → Emit β} (hx : Abreast T x y)
    (hf : ∀ a, Abreast T (f a) (g a)) : Abreast T (x >>= f) (y >>= g) := by
  intro marks marks' c c' b b' d d' h hxf hyg
  obtain ⟨a, c₁, hx₁, hf₁⟩ := yields_bind.mp hxf
  obtain ⟨a', c₁', hy₁, hg₁⟩ := yields_bind.mp hyg
  obtain ⟨rfl, h₁⟩ := hx h hx₁ hy₁
  exact hf a h₁ hf₁ hg₁

theorem abreast_get {f g : Code → Emit α} (hf : ∀ c c', c.Parallel T c' → Abreast T (f c) (g c')) :
    Abreast T (get >>= f) (get >>= g) := by
  intro marks marks' c c' b b' d d' h hx hy
  rw [yields_get_bind] at hx hy
  exact hf c c' h h hx hy

theorem abreast_fail (cause : CodeError) (y : Emit α) : Abreast T (fail cause) y := by
  intro marks marks' c c' b b' d d' _ hx _
  exact (yields_fail.mp hx).elim

theorem abreast_modify {f : Code → Code} (hf : ∀ c c', c.Parallel T c' → (f c).Parallel T (f c')) :
    Abreast T (modify f) (modify f) := by
  intro marks marks' c c' b b' d d' h hx hy
  obtain rfl := yields_modify.mp hx
  obtain rfl := yields_modify.mp hy
  exact ⟨rfl, hf c c' h⟩

theorem abreast_append (op : Opcode) (operand change : Int) :
    Abreast T (append op operand change) (append op operand change) :=
  abreast_modify fun _ _ h => h.appended op operand change

theorem abreast_addConstant (hT : Shares T) (hv : T v v') :
    Abreast T (addConstant v) (addConstant v') := by
  intro marks marks' c c' i i' d d' h hx hy
  obtain ⟨rfl, rfl, -⟩ := addConstant_of_yields hx
  obtain ⟨rfl, rfl, -⟩ := addConstant_of_yields hy
  obtain ⟨hindex, hpooled⟩ := h.pooled hT hv
  exact ⟨hindex.symm, hpooled⟩

theorem abreast_loadConst (hT : Shares T) (hv : T v v') : Abreast T (loadConst v) (loadConst v') :=
  abreast_bind (abreast_addConstant hT hv) fun _ => abreast_append ..

theorem abreast_localSlot (name : Text) : Abreast T (localSlot name) (localSlot name) := by
  intro marks marks' c c' i i' d d' h hx hy
  obtain ⟨rfl, rfl⟩ := yields_localSlot.mp hx
  obtain ⟨rfl, rfl⟩ := yields_localSlot.mp hy
  obtain ⟨hslot, hdeclared⟩ := h.declared name
  exact ⟨hslot.symm, hdeclared⟩

theorem abreast_newLabel : Abreast T newLabel newLabel := by
  intro marks marks' c c' l l' d d' h hx hy
  obtain ⟨rfl, rfl⟩ := yields_newLabel.mp hx
  obtain ⟨rfl, rfl⟩ := yields_newLabel.mp hy
  exact ⟨by rw [h.labels], h.labelled⟩

theorem abreast_namedLabel (name : Text) : Abreast T (namedLabel name) (namedLabel name) := by
  apply abreast_get
  intro c c' h
  rw [h.namedLabels]
  cases c.namedLabels.lookup name with
  | some l => exact abreast_pure l
  | none =>
    apply abreast_bind abreast_newLabel
    intro l
    apply abreast_bind (abreast_modify fun _ _ h => h.named name l)
    exact fun _ => abreast_pure l

theorem abreast_mark (l : Label) : Abreast T (mark l) (mark l) := by
  intro marks marks' c c' u u' d d' h hx hy
  obtain ⟨-, info, hinfo, -, -, rfl⟩ := marked_of_yields hx
  obtain ⟨-, info', hinfo', -, -, rfl⟩ := marked_of_yields hy
  rw [h.label?, hinfo] at hinfo'
  cases hinfo'
  exact ⟨rfl, h.marked l info⟩

theorem abreast_jump (l : Label) : Abreast T (jump l) (jump l) := by
  intro marks marks' c c' u u' d d' h hx hy
  obtain ⟨c₁, hbranch, rfl⟩ := jump_of_yields hx
  obtain ⟨c₁', hbranch', rfl⟩ := jump_of_yields hy
  rw [h.depth] at hbranch'
  exact ⟨rfl, ((h.branches hbranch hbranch').appended _ _ _).ended⟩

theorem abreast_popJump (op : Opcode) (l : Label) : Abreast T (popJump op l) (popJump op l) := by
  intro marks marks' c c' u u' d d' h hx hy
  have hbranch' := popJump_of_yields hy
  rw [h.depth] at hbranch'
  exact ⟨rfl, (h.appended op l (-1)).branches (popJump_of_yields hx) hbranch'⟩

theorem abreast_jumpOrPop (op : Opcode) (l : Label) :
    Abreast T (jumpOrPop op l) (jumpOrPop op l) := by
  intro marks marks' c c' u u' d d' h hx hy
  obtain ⟨c₁, hbranch, rfl⟩ := jumpOrPop_of_yields hx
  obtain ⟨c₁', hbranch', rfl⟩ := jumpOrPop_of_yields hy
  rw [h.depth] at hbranch'
  exact ⟨rfl, (h.branches hbranch hbranch').appended op l (-1)⟩

theorem abreast_jumpTable (ls : List Label) (l : Label) :
    Abreast T (jumpTable ls l) (jumpTable ls l) := by
  intro marks marks' c c' u u' d d' h hx hy
  obtain ⟨-, c₁, c₂, hall, hbranch, rfl⟩ := jumpTable_of_yields hx
  obtain ⟨-, c₁', c₂', hall', hbranch', rfl⟩ := jumpTable_of_yields hy
  rw [h.depth, h.tables] at hall'
  have h₁ := (h.appended _ _ _).branchesAll hall hall'
  rw [h₁.depth] at hbranch'
  exact ⟨rfl, ((h₁.branches hbranch hbranch').tabled _).ended⟩

theorem abreast_endReach : Abreast T endReach endReach := abreast_modify fun _ _ h => h.ended

theorem abreast_loadName (hT : Shares T) (hstr : ∀ s, T (.str s) (.str s)) (name : Text) :
    Abreast T (loadName name) (loadName name) := by
  apply abreast_get
  intro c c' h
  rw [h.slot?]
  cases c.slot? name with
  | some slot => exact abreast_append ..
  | none => exact abreast_bind (abreast_addConstant hT (hstr name)) fun _ => abreast_append ..

theorem abreast_storeName (name : Text) : Abreast T (storeName name) (storeName name) :=
  abreast_bind (abreast_localSlot name) fun _ => abreast_append ..

theorem abreast_transfer : Abreast T transfer transfer :=
  abreast_bind (abreast_append ..) fun _ => abreast_bind (abreast_storeName _) fun _ =>
    abreast_bind (abreast_storeName _) fun _ => abreast_bind (abreast_namedLabel _) abreast_jump

/-- Emissions side by side can be put together. -/
theorem compositional_abreast (hT : Shares T) (hstr : ∀ s, T (.str s) (.str s)) :
    Compositional fun _ _ x y => Abreast T x y where
  pure := abreast_pure
  bind := abreast_bind
  append := abreast_append
  addName name := abreast_addConstant hT (hstr name)
  localSlot := abreast_localSlot
  loadName := abreast_loadName hT hstr
  newLabel hf := abreast_bind abreast_newLabel hf
  mark _ := abreast_mark _
  jump _ := abreast_jump _
  popJump op _ _ _ := abreast_popJump op _
  jumpOrPop op _ _ _ := abreast_jumpOrPop op _
  transfer := @fun _ => abreast_transfer
  look hf := abreast_get fun c c' h => hf c c' h.name h.depth h.reachable
  fail cause := abreast_fail cause _

/-- The gate lets expressions through side by side. -/
theorem abreast_expression (n m : Node) {x y : Emit Unit} (hxy : Abreast T x y) :
    Abreast T (expression n x) (expression m y) := by
  intro marks marks' c c' u u' d d' h hx hy
  obtain ⟨c₁, hinner, -, events, observations, rfl⟩ := expression_of_yields hx
  obtain ⟨c₁', hinner', -, events', observations', rfl⟩ := expression_of_yields hy
  obtain ⟨-, h₁⟩ := hxy (h.noted _ _ _ _ _ _)
    ((yields_interceptable (by exact h.plain.1)).mp hinner)
    ((yields_interceptable (by exact h.plain.2)).mp hinner')
  exact ⟨rfl, h₁.noted _ _ _ _ _ _⟩

/-- Expressions that match are emitted side by side. -/
theorem abreast_emitInto (hT : Shares T) (hstr : ∀ s, T (.str s) (.str s)) {n m : Node}
    (h : n.Matches T m) : Abreast T n.emitInto m.emitInto := by
  have hpaired := Node.paired_of_matches (compositional_abreast hT hstr)
    (fun v w hvw _ => abreast_loadConst hT hvw)
    (fun n m x y _ hxy _ => abreast_expression n m (hxy [])) n m h
  exact hpaired.gated []

/-! ### Interpreters -/

theorem abreast_newLabels (count : Nat) : Abreast T (newLabels count) (newLabels count) := by
  induction count with
  | zero => exact abreast_pure []
  | succ count ih =>
    exact abreast_bind abreast_newLabel fun _ => abreast_bind ih fun _ => abreast_pure _

theorem abreast_loadSlots (first count : Nat) :
    Abreast T (loadSlots first count) (loadSlots first count) := by
  induction count generalizing first with
  | zero => exact abreast_pure ()
  | succ count ih => exact abreast_bind (abreast_append ..) fun _ => ih (first + 1)

theorem abreast_actions (hT : Shares T) (hstr : ∀ s, T (.str s) (.str s)) (labels : List Label)
    (h : Forall₂ (Node.Matches T) ns ms) :
    Abreast T (actions labels ns) (actions labels ms) := by
  induction h generalizing labels with
  | nil => cases labels <;> exact abreast_pure ()
  | cons hfirst _ ih =>
    cases labels with
    | nil => exact abreast_pure ()
    | cons l labels =>
      refine abreast_bind (abreast_mark l) fun _ => abreast_bind (abreast_emitInto hT hstr hfirst)
        fun _ => abreast_get fun c c' hc => ?_
      rw [hc.reachable]
      split
      · exact abreast_bind abreast_transfer fun _ => ih labels
      · exact ih labels

theorem abreast_opening (hT : Shares T) {root' : Value} (hroot : T root root') :
    Abreast T (opening root) (opening root') :=
  abreast_bind (abreast_localSlot _) fun _ => abreast_bind (abreast_localSlot _) fun _ =>
    abreast_bind (abreast_loadConst hT hroot) fun _ => abreast_bind (abreast_append ..) fun _ =>
    abreast_bind (abreast_append ..) fun _ => abreast_bind (abreast_append ..) fun _ =>
    abreast_bind (abreast_namedLabel _) fun _ => abreast_bind (abreast_mark _) fun _ =>
      abreast_pure _

theorem abreast_fork (action count : Nat) : Abreast T (fork action count) (fork action count) :=
  abreast_bind abreast_newLabel fun _ => abreast_bind (abreast_newLabels count) fun _ =>
    abreast_bind abreast_newLabel fun _ => abreast_bind (abreast_append ..) fun _ =>
    abreast_bind (abreast_jumpTable ..) fun _ => abreast_pure _

theorem abreast_leaving (l : Label) (argument paramCount : Nat) :
    Abreast T (leaving l argument paramCount) (leaving l argument paramCount) :=
  abreast_bind (abreast_mark l) fun _ => abreast_bind (abreast_append ..) fun _ =>
    abreast_bind (abreast_loadSlots ..) fun _ => abreast_bind (abreast_append ..) fun _ =>
    abreast_bind (abreast_append ..) fun _ => abreast_endReach

theorem abreast_refusal (l : Label) (action argument : Nat) :
    Abreast T (refusal l action argument) (refusal l action argument) :=
  abreast_bind (abreast_mark l) fun _ => abreast_bind (abreast_append ..) fun _ =>
    abreast_bind (abreast_append ..) fun _ => abreast_bind (abreast_append ..) fun _ =>
    abreast_bind (abreast_append ..) fun _ => abreast_endReach

/-- The code of an interpreter, before it is assembled. -/
def walking (root : Value) (paramCount : Nat) (ns : List Node) : Emit Unit := do
  let (action, argument) ← opening root
  let (exit, targets, invalid) ← fork action ns.length
  leaving exit argument paramCount
  actions targets ns
  refusal invalid action argument

theorem abreast_walking (hT : Shares T) (hstr : ∀ s, T (.str s) (.str s)) (hroot : T root root)
    (paramCount : Nat) (h : Forall₂ (Node.Matches T) ns ms) :
    Abreast T (walking root paramCount ns) (walking root paramCount ms) := by
  unfold walking
  rw [h.length_eq]
  exact abreast_bind (abreast_opening hT hroot) fun _ => abreast_bind (abreast_fork ..) fun _ =>
    abreast_bind (abreast_leaving ..) fun _ => abreast_bind (abreast_actions hT hstr _ h) fun _ =>
    abreast_refusal ..

theorem interpreter_eq_walking (root : Value) (paramCount : Nat) (t : ActionTable) :
    interpreter root paramCount none t = (do
      walking root paramCount t.actions.toList
      let p ← program
      report (.generated p.name p.chunk)
      return p) := by
  rw [interpreter_eq]
  simp only [walking, bind_assoc, ActionTable.size, Array.length_toList]

end Abreast

end Emit

/-- Buffers that are filled alike are assembled into the same code. -/
theorem Code.Parallel.assembled (h : c.Parallel T c') {chunk chunk' : Chunk}
    (hchunk : Assembled c chunk) (hchunk' : Assembled c' chunk') :
    chunk.code = chunk'.code ∧ chunk.tables = chunk'.tables ∧ chunk.localNames = chunk'.localNames ∧
      chunk.maxStack = chunk'.maxStack := by
  have hoffsets : c'.offsets = c.offsets := by
    rw [Code.offsets, Code.offsets, h.body, h.prologue]
  have hresolve : c'.labelOffset c'.offsets = c.labelOffset c.offsets := by
    funext l
    rw [Code.labelOffset, Code.labelOffset, h.label?, hoffsets, h.name]
  have hinstrs : c'.instrs = c.instrs := by
    rw [Code.instrs, Code.instrs, h.body, h.prologue]
  have htables := hchunk'.tables
  have hcode := hchunk'.code
  rw [hresolve, h.tables, hchunk.tables] at htables
  rw [hresolve, hinstrs, hchunk.code] at hcode
  refine ⟨(Prod.mk.inj hcode).1, (Prod.mk.inj htables).1, ?_, ?_⟩
  · rw [hchunk.localNames, hchunk'.localNames, h.locals]
  · rw [hchunk.maxStack, hchunk'.maxStack, h.maxDepth]

namespace ActionTable

/-- A program that has been generated is the assembled code of an interpreter. -/
theorem walking_of_ok (hp : (t.generateProgram g marks none root name params).1 = .ok p) :
    ∃ c, (Emit.walking root params.length t.actions.toList).Yields marks
      (Code.create name params) () c ∧ Assembled c p.chunk := by
  rw [generateProgram] at hp
  split at hp
  next => cases hp
  next =>
    cases hfree : params.find? (reservedNames.contains ·) with
    | some param =>
      rw [hfree] at hp
      cases hp
    | none =>
      rw [hfree] at hp
      have hyields : (Emit.interpreter root params.length none t).Yields marks
          (Code.create name params) p _ :=
        Prod.ext hp rfl
      rw [Emit.interpreter_eq_walking] at hyields
      obtain ⟨_, c, hwalking, hyields⟩ := Emit.yields_bind.mp hyields
      obtain ⟨p', c₁, hprogram, hyields⟩ := Emit.yields_bind.mp hyields
      obtain ⟨_, c₂, -, hyields⟩ := Emit.yields_bind.mp hyields
      obtain ⟨rfl, -⟩ := Emit.yields_pure.mp hyields
      exact ⟨c, hwalking, (program_of_yields hprogram).1⟩

/-- Tables of actions that match, with constants that are shared alike, give the same code. -/
theorem generateProgram_of_matches (hT : Shares T) (hstr : ∀ s, T (.str s) (.str s))
    (hroot : T root root)
    (hmatch : Forall₂ (Node.Matches T) t.actions.toList t'.actions.toList) {p' : Program}
    (hp : (t.generateProgram g marks none root name params).1 = .ok p)
    (hp' : (t'.generateProgram g' marks' none root name params).1 = .ok p') :
    p.chunk.code = p'.chunk.code ∧ p.chunk.tables = p'.chunk.tables ∧
      p.chunk.localNames = p'.chunk.localNames ∧ p.chunk.maxStack = p'.chunk.maxStack := by
  obtain ⟨c, hyields, hchunk⟩ := walking_of_ok hp
  obtain ⟨c', hyields', hchunk'⟩ := walking_of_ok hp'
  have hstart : (Code.create name params).Parallel T (Code.create name params) := by
    obtain ⟨locals, hcreate⟩ := Code.exists_create_eq name params
    rw [hcreate]
    exact ⟨rfl, rfl, rfl, rfl, rfl, rfl, rfl, rfl, rfl, rfl, ⟨rfl, rfl⟩, .nil⟩
  have hparallel := (Emit.abreast_walking hT hstr hroot params.length hmatch hstart
    hyields hyields').2
  exact hparallel.assembled hchunk hchunk'

/-- The constants of all actions, in the order of the text. -/
def constants (t : ActionTable) : List Value := t.actions.toList.flatMap Node.constants

end ActionTable

/-- Which of the values are identical is the same in both lists. -/
def SharedAlike (vs ws : List Value) : Prop :=
  ∀ p ∈ vs.zip ws, ∀ q ∈ vs.zip ws, p.1.identical q.1 = p.2.identical q.2

instance (vs ws : List Value) : Decidable (SharedAlike vs ws) :=
  inferInstanceAs (Decidable (∀ p ∈ vs.zip ws, ∀ q ∈ vs.zip ws,
    p.1.identical q.1 = p.2.identical q.2))

/-- Values that are the same as constants are identical to the same texts. -/
theorem Heap.Same.identical_str {w : Value} (hsame : h.Same v w) (s : Text) :
    v.identical (.str s) = w.identical (.str s) ∧
      Value.identical (.str s) v = Value.identical (.str s) w := by
  cases hsame with
  | identical hidentical =>
    cases v <;> cases w <;> simp_all [Value.identical]
  | float htext => exact ⟨rfl, rfl⟩
  | compound hkind hcompound hparts =>
    cases v <;> cases w <;> simp_all [Value.kind, Value.identical]

/-- The correspondence of constants that are in the same places, and of names. -/
def Corresponds (h : Heap) (vs ws : List Value) (v w : Value) : Prop :=
  h.Same v w ∧ ((v, w) ∈ vs.zip ws ∨ ∃ s, v = .str s ∧ w = .str s)

theorem shares_corresponds {vs ws : List Value} (hshared : SharedAlike vs ws) :
    Shares (Corresponds h vs ws) := by
  rintro v v' w w' ⟨hv, hmem | ⟨s, rfl, rfl⟩⟩ ⟨hw, hmem' | ⟨s', rfl, rfl⟩⟩
  · exact hshared _ hmem _ hmem'
  · exact (hv.identical_str s').1
  · exact (hw.identical_str s).2
  · rfl

namespace ActionTable

variable {h₁ h₁' : Heap} {f f' : Value} {globals globals' : Bindings}

/-- Actions of the same signatures match, and so do their constants. -/
theorem matches_of_signatures (hfounded : h.Founded)
    (hmade : ∀ n ∈ t.actions.toList ++ t'.actions.toList, n.MadeIn h)
    (hsignatures : t.actions.toList.map Node.signature = t'.actions.toList.map Node.signature)
    (root : Value) :
    Forall₂ (Node.Matches (Corresponds h (root :: t.constants) (root :: t'.constants)))
      t.actions.toList t'.actions.toList := by
  have hsame : Forall₂ (Node.Matches h.Same) t.actions.toList t'.actions.toList := by
    rw [forall_mem_append] at hmade
    have heq : Forall₂ (· = ·) (t.actions.toList.map Node.signature)
        (t'.actions.toList.map Node.signature) := by
      rw [forall₂_eq_eq_eq]
      exact hsignatures
    rw [forall₂_map_left_iff, forall₂_map_right_iff] at heq
    exact Node.forall₂_imp_mem heq fun n hn m hm heq =>
      (Node.told hfounded n (hmade.1 n hn) m (hmade.2 m hm) [] [] heq).1
  have hconstants : Forall₂ h.Same t.constants t'.constants :=
    rel_flatMap hsame fun n m hnm => Node.Matches.constants n m hnm
  have hcorrespond : Forall₂ (Corresponds h (root :: t.constants) (root :: t'.constants))
      t.constants t'.constants := by
    rw [forall₂_iff_zip] at hconstants ⊢
    refine ⟨hconstants.1, fun {v w} hvw => ⟨hconstants.2 hvw, .inl ?_⟩⟩
    rw [zip_cons_cons]
    exact mem_cons_of_mem _ hvw
  have hlengths := hsame.imp fun n m hnm => (Node.Matches.constants n m hnm).length_eq
  exact Forall₂.mp (fun n m hnm hparts => Node.Matches.of_constants n m hnm hparts) hsame
    (Node.forall₂_of_flatMap hlengths hcorrespond)

/-- **The signatures of the actions determine the code.** Two tables whose actions were made in one
state of the heap and have the same signatures, in the same order, and whose constants are shared
alike, give functions with the same code, jump tables, names of locals and height of the stack, for
the same root, name and parameters and without a cache. -/
theorem generate_same_code (hfounded : h.Founded)
    (hmade : ∀ n ∈ t.actions.toList ++ t'.actions.toList, n.MadeIn h)
    (hsignatures : t.actions.toList.map Node.signature = t'.actions.toList.map Node.signature)
    (hshared : SharedAlike (root :: t.constants) (root :: t'.constants))
    (hgenerate : t.generate marks none root name params globals g = (.ok f, h₁))
    (hgenerate' : t'.generate marks' none root name params globals' g' = (.ok f', h₁')) :
    ∃ r r' closure closure', f = .function r ∧ h₁.function? r = some (.compiled closure) ∧
      f' = .function r' ∧ h₁'.function? r' = some (.compiled closure') ∧
      (h₁.chunk closure.chunk).code = (h₁'.chunk closure'.chunk).code ∧
      (h₁.chunk closure.chunk).tables = (h₁'.chunk closure'.chunk).tables ∧
      (h₁.chunk closure.chunk).localNames = (h₁'.chunk closure'.chunk).localNames ∧
      (h₁.chunk closure.chunk).maxStack = (h₁'.chunk closure'.chunk).maxStack := by
  obtain ⟨p, r, closure, hp, rfl, hfunction, -, -, hchunk, -⟩ := generate_of_ok hgenerate
  obtain ⟨p', r', closure', hp', rfl, hfunction', -, -, hchunk', -⟩ := generate_of_ok hgenerate'
  have hroot : Corresponds h (root :: t.constants) (root :: t'.constants) root root :=
    ⟨.identical (Value.identical_self root), .inl mem_cons_self⟩
  have hsame := generateProgram_of_matches (shares_corresponds hshared)
    (fun s => ⟨.identical (Value.identical_self _), .inr ⟨s, rfl, rfl⟩⟩) hroot
    (matches_of_signatures hfounded hmade hsignatures root) hp hp'
  rw [← hchunk, ← hchunk'] at hsame
  exact ⟨r, r', closure, closure', rfl, hfunction, rfl, hfunction', hsame⟩

end ActionTable

/-! ### Tuples that are written alike -/

/-- Two equal tuples, and a pair to start from. -/
def Heap.twinTree : Heap := (twins.alloc (.tuple [.int 1, .none])).2

def Node.triple (v w : Value) : Node :=
  .collection .tuple
    [.var "x", .const v (Heap.twinTree.signature v), .const w (Heap.twinTree.signature w)]

theorem Heap.founded_twinTree : twinTree.Founded := by
  apply founded_twins.alloc
  simp [Cell.parts, Value.Before]

theorem Node.madeIn_triple (hr : r < 3) (hs : s < 3) :
    (triple (.tuple r) (.tuple s)).MadeIn Heap.twinTree := by
  have hconst : ∀ {r : Nat}, r < 3 →
      (Node.const (.tuple r) (Heap.twinTree.signature (.tuple r))).MadeIn Heap.twinTree := by
    intro r hr
    rw [MadeIn, everywhere_iff]
    refine ⟨?_, forall_mem_nil _⟩
    rintro v s ⟨⟩
    exact ⟨rfl, hr⟩
  have hvar : (Node.var "x").MadeIn Heap.twinTree := by
    rw [MadeIn, everywhere_iff]
    exact ⟨by rintro _ _ ⟨⟩, forall_mem_nil _⟩
  rw [MadeIn, everywhere_iff]
  refine ⟨by rintro _ _ ⟨⟩, ?_⟩
  rw [triple, children]
  exact forall_mem_cons.mpr ⟨hvar, forall_mem_cons.mpr ⟨hconst hr, forall_mem_cons.mpr
    ⟨hconst hs, forall_mem_nil _⟩⟩⟩

theorem Node.matches_triple (hr : r < 2) (hs : s < 2) (hr' : r' < 2) (hs' : s' < 2) :
    (triple (.tuple r) (.tuple s)).Matches Heap.twinTree.Same (triple (.tuple r') (.tuple s')) := by
  have hparts : ∀ {r : Nat}, r < 2 → Heap.twinTree.parts (.tuple r) = [.int 7] := by
    intro r hr
    obtain rfl | rfl : r = 0 ∨ r = 1 := by omega
    · rfl
    · rfl
  have hsame : ∀ {r r' : Nat}, r < 2 → r' < 2 → Heap.twinTree.Same (.tuple r) (.tuple r') := by
    intro r r' hr hr'
    refine .compound rfl (.inl rfl) ?_
    rw [hparts hr, hparts hr']
    exact .cons (.identical (Value.identical_self _)) .nil
  exact .operands (.collection .tuple (.cons (.operands (.var "x")) (.cons (.const (hsame hr hr'))
    (.cons (.const (hsame hs hs')) .nil))))

theorem Node.signature_triple (hr : r < 2) (hs : s < 2) (hr' : r' < 2) (hs' : s' < 2) :
    (triple (.tuple r) (.tuple s)).signature = (triple (.tuple r') (.tuple s')).signature :=
  congrFun (Matches.sameThen _ (madeIn_triple (by omega) (by omega)) _
    (madeIn_triple (by omega) (by omega)) (matches_triple hr hs hr' hs')) []

def ActionTable.tripling (r s : Nat) : ActionTable :=
  { actions := #[.triple (.tuple r) (.tuple s)] }

namespace ActionTable

def codeOf : Except Failure Value × Heap → Option (Array UInt8)
  | (.ok (.function r), h) =>
    match h.function? r with
    | some (.compiled closure) => some (h.chunk closure.chunk).code
    | _ => none
  | _ => none

theorem codeOf_eq {r : Ref} {closure : Closure} (hr : h.function? r = some (.compiled closure)) :
    codeOf (.ok (.function r), h) = some (h.chunk closure.chunk).code := by
  simp only [codeOf, hr]

theorem exists_of_codeOf {result : Except Failure Value × Heap} (h : (codeOf result).isSome) :
    ∃ f h₁, result = (.ok f, h₁) := by
  obtain ⟨_ | f, h₁⟩ := result
  · cases h
  · exact ⟨f, h₁, rfl⟩

def generateTripling (r s : Nat) : Except Failure Value × Heap :=
  (tripling r s).generate (fun _ _ => false) none (.tuple 2) "f" ["x"] {} Heap.twinTree

theorem generate_same_code_tripling :
    (codeOf (generateTripling 0 0)).isSome ∧
    codeOf (generateTripling 0 0) = codeOf (generateTripling 1 1) := by
  have hsome : (codeOf (generateTripling 0 0)).isSome ∧
      (codeOf (generateTripling 1 1)).isSome := by decide +kernel
  refine ⟨hsome.1, ?_⟩
  have hmade : ∀ n ∈ (tripling 0 0).actions.toList ++ (tripling 1 1).actions.toList,
      n.MadeIn Heap.twinTree := by
    rw [forall_mem_append]
    exact ⟨forall_mem_cons.mpr ⟨Node.madeIn_triple (by decide) (by decide), nofun⟩,
      forall_mem_cons.mpr ⟨Node.madeIn_triple (by decide) (by decide), nofun⟩⟩
  have hsignatures : (tripling 0 0).actions.toList.map Node.signature =
      (tripling 1 1).actions.toList.map Node.signature :=
    cons_eq_cons.mpr ⟨Node.signature_triple (by decide) (by decide) (by decide) (by decide), rfl⟩
  have hshared : SharedAlike (.tuple 2 :: (tripling 0 0).constants)
      (.tuple 2 :: (tripling 1 1).constants) := by
    decide +kernel
  obtain ⟨f, h₁, hgenerate⟩ := exists_of_codeOf hsome.1
  obtain ⟨f', h₁', hgenerate'⟩ := exists_of_codeOf hsome.2
  obtain ⟨r, r', closure, closure', rfl, hfunction, rfl, hfunction', hcode, -⟩ :=
    generate_same_code Heap.founded_twinTree hmade hsignatures hshared hgenerate hgenerate'
  rw [hgenerate, hgenerate', codeOf_eq hfunction, codeOf_eq hfunction', hcode]

/-- Signatures do not tell whether two constants are one tuple or two, and the code does. -/
theorem generate_twins_differ :
    (tripling 0 0).actions.toList.map Node.signature =
      (tripling 0 1).actions.toList.map Node.signature ∧
      (tripling 0 0).fingerprintInput = (tripling 0 1).fingerprintInput ∧
      (codeOf (generateTripling 0 0)).isSome ∧ (codeOf (generateTripling 0 1)).isSome ∧
      codeOf (generateTripling 0 0) ≠ codeOf (generateTripling 0 1) := by
  have hsignature : (Node.triple (.tuple 0) (.tuple 0)).signature =
      (Node.triple (.tuple 0) (.tuple 1)).signature :=
    Node.signature_triple (by decide) (by decide) (by decide) (by decide)
  have hsome : (codeOf (generateTripling 0 0)).isSome ∧
      (codeOf (generateTripling 0 1)).isSome := by decide +kernel
  have hne : codeOf (generateTripling 0 0) ≠ codeOf (generateTripling 0 1) := by decide +kernel
  refine ⟨cons_eq_cons.mpr ⟨hsignature, rfl⟩, ?_, hsome.1, hsome.2, hne⟩
  simp only [fingerprintInput, tripling, zipIdx_cons, zipIdx_nil, flatMap_cons,
    flatMap_nil, hsignature]

end ActionTable

end ExprBackend
