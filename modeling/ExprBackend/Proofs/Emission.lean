import ExprBackend.Proofs.Computation
import Mathlib.Algebra.Order.Ring.Int
import Mathlib.Tactic.Simps.Basic

/-! # Successful emissions

What each emission does to the buffer when it succeeds. A conditional or an
unconditional jump records the height of the stack at its label, and only code
that can be reached records anything; a label that is placed takes its height
from the code that runs into it, or else from the jumps that go there.
-/

namespace ExprBackend

variable {c c' : Code} {info : LabelInfo} {l l' : Label}

/-- A height that is not too far from zero is kept without loss. -/
theorem height_eq {n : Int} (h : -(2 ^ 62 : Int) ≤ n ∧ n ≤ 2 ^ 62) : height n = n := by
  rw [height, Int.bmod_eq_of_le] <;> omega

/-- The place of a value in the pool: that of a value identical to it, or else the next one. -/
def Chunk.place (c : Chunk) (v : Value) : Nat :=
  (c.constants.findIdx? (·.identical v)).getD c.constants.size

namespace Code

@[simps] def appended (c : Code) (op : Opcode) (operand change : Int) : Code :=
  { c with
    body := c.body.push ⟨op, operand⟩
    depth := height (c.depth + change)
    maxDepth := max c.maxDepth (height (c.depth + change)) }

@[simps] def pooled (c : Code) (v : Value) : Code := { c with chunk := (c.chunk.addConstant v).2 }

/-- The index that a constant has in the pool. -/
def constantIndex (c : Code) (v : Value) : Nat := c.chunk.place v

/-- The buffer with a local, which is new unless it was there. -/
def declared (c : Code) (name : Text) : Code := (c.declare name).2

/-- The slot of a local, which is the next one unless the local was there. -/
def declaredSlot (c : Code) (name : Text) : Nat := (c.declare name).1

@[simps] def labelled (c : Code) : Code := { c with labels := c.labels.push {} }

@[simps] def withLabel (c : Code) (l : Label) (info : LabelInfo) : Code :=
  { c with labels := c.labels.setIfInBounds l.toNat info }

/-- The buffer after a label, of which something was known, has been placed. -/
@[simps] def marked (c : Code) (l : Label) (info : LabelInfo) : Code :=
  { c with
    labels := c.labels.setIfInBounds l.toNat
      ⟨some c.body.size, if c.reachable then c.depth else info.depth⟩
    depth := if c.reachable = false ∧ 0 ≤ info.depth then info.depth else c.depth
    reachable := c.reachable || decide (0 ≤ info.depth) }

@[simps] def tabled (c : Code) (t : TableSpec) : Code := { c with tables := c.tables ++ [t] }

@[simps] def ended (c : Code) : Code := { c with reachable := false }

/-- The buffer with other notes about the emission, which no code depends on. -/
@[simps] def noted (c : Code) (emitting : List LazySignature) (events : Array Event)
    (observations : Array Observation) : Code :=
  { c with emitting, events, observations }

/-- The buffer in which the emission of a prologue starts. -/
@[simps] def opened (c : Code) : Code :=
  { c with body := c.prologue, depth := 0, reachable := true, inPrologue := true }

/-- The buffer after the emission of a prologue has ended in another. -/
@[simps] def closed (c inner : Code) : Code :=
  { inner with
    prologue := inner.body
    body := c.body
    depth := c.depth
    reachable := c.reachable
    inPrologue := false }

/-- What becomes of a buffer when a jump to a label is recorded. Nothing is recorded for a jump
that is never carried out, and for a label that is placed nothing changes. -/
inductive Branches (c : Code) (l : Label) (d : Int) : Code → Prop where
  | dead : c.reachable = false → Branches c l d c
  | backward {info : LabelInfo} : c.reachable = true → c.label? l = some info →
      info.position.isSome = true → 0 ≤ info.depth → info.depth = d → Branches c l d c
  | forward {info : LabelInfo} : c.reachable = true → c.label? l = some info →
      info.position = none → (0 ≤ info.depth → info.depth = d) →
      Branches c l d (c.withLabel l { info with depth := d })

inductive BranchesAll (d : Int) : Code → List Label → Code → Prop where
  | nil {c : Code} : BranchesAll d c [] c
  | skip {c c' : Code} {rest : List Label} : BranchesAll d c rest c' →
      BranchesAll d c (Label.none :: rest) c'
  | cons {c c1 c' : Code} {l : Label} {rest : List Label} : l ≠ Label.none →
      c.Branches l d c1 → BranchesAll d c1 rest c' → BranchesAll d c (l :: rest) c'

theorem label?_of_labels_eq (h : c'.labels = c.labels) (l : Label) : c'.label? l = c.label? l := by
  simp only [label?, h]

theorem label?_labelled (h : c.label? l = some info) : c.labelled.label? l = some info := by
  unfold label? at h ⊢
  split at h
  next hl =>
    have hbound := (Array.getElem?_eq_some_iff.mp h).1
    rw [if_pos hl, labelled_labels, Array.getElem?_push_lt hbound, ← Array.getElem?_eq_getElem]
    exact h
  next => cases h

theorem label?_labelled_new (c : Code) : c.labelled.label? c.labels.size = some {} := by
  simp [label?]

/-- A label is new, or it was there before. -/
theorem label?_of_labelled (h : c.labelled.label? l = some info) :
    c.label? l = some info ∨ l = c.labels.size ∧ info = {} := by
  unfold label? at h ⊢
  split at h
  next hl =>
    rw [if_pos hl]
    rw [labelled_labels, Array.getElem?_push] at h
    split at h
    next hsize =>
      cases h
      exact .inr ⟨by rw [← hsize]; exact (Int.toNat_of_nonneg hl).symm, rfl⟩
    next => exact .inl h
  next => cases h

/-- A label that is known has a place among the labels. -/
theorem lt_of_label? (h : c.label? l = some info) : 0 ≤ l ∧ l.toNat < c.labels.size := by
  unfold label? at h
  split at h
  next hl => exact ⟨hl, (Array.getElem?_eq_some_iff.mp h).1⟩
  next => cases h

theorem label?_set_same {old : LabelInfo}
    (hlabels : c'.labels = c.labels.setIfInBounds l.toNat info) (h : c.label? l = some old) :
    c'.label? l = some info := by
  obtain ⟨hl, hbound⟩ := lt_of_label? h
  simp [label?, hlabels, hl, hbound]

theorem label?_set_other (hlabels : c'.labels = c.labels.setIfInBounds l.toNat info) (hne : l' ≠ l)
    (hl : 0 ≤ l) : c'.label? l' = c.label? l' := by
  unfold label?
  split
  next hl' =>
    have hplace : l.toNat ≠ l'.toNat := fun h =>
      hne (by rw [← Int.toNat_of_nonneg hl, ← Int.toNat_of_nonneg hl', h])
    rw [hlabels, Array.getElem?_setIfInBounds_ne hplace]
  next => rfl

/-- Declaring a local changes nothing but the locals. -/
theorem declared_eq (c : Code) (name : Text) :
    c.declared name = { c with locals := (c.declared name).locals } := by
  rw [declared, declare]
  split <;> rfl

/-- A new buffer has nothing but locals. -/
theorem exists_create_eq (name : Text) (params : List Text) :
    ∃ locals, create name params = { name, paramCount := params.length, locals } := by
  have hfold : ∀ (rest : List Text) (c : Code), ∃ locals,
      c.declareAll rest = { c with locals } := by
    intro rest
    induction rest with
    | nil => exact fun c => ⟨c.locals, rfl⟩
    | cons param rest ih =>
      intro c
      obtain ⟨locals, hrest⟩ := ih (c.declared param)
      refine ⟨locals, ?_⟩
      rw [declareAll, List.foldl_cons, ← declared, ← declareAll, hrest, declared_eq]
  unfold create
  split
  · exact hfold params _
  · split
    · exact ⟨params, rfl⟩
    · exact hfold params _

end Code

namespace Emit

variable {marks : Marks} {u : Unit} {op : Opcode} {v : Value} {name : Text} {d : Int}
  {ls : List Label} {x : Emit Unit} {α : Type} {n : Node}

theorem yields_append {operand change : Int} :
    (append op operand change).Yields marks c u c' ↔ c.appended op operand change = c' :=
  yields_modify

/-- A constant is put into the pool and has a place there, unless the pool is full. -/
theorem run_addConstant (v : Value) (marks : Marks) (c : Code) :
    (addConstant v marks c : Except Failure Nat × Code) =
      (if (c.pooled v).chunk.constants.size ≤ max c.chunk.constants.size 65536 then
        .ok (c.constantIndex v) else .error (.fault .fullPool), c.pooled v) := by
  change (((c.chunk.addConstant v).1.mapError Failure.fault,
      c.pooled v) : Except Failure Nat × Code) = _
  rw [Code.pooled_chunk, Code.constantIndex, Chunk.place, Chunk.addConstant]
  cases c.chunk.constants.findIdx? (·.identical v) with
  | some i => simp [Except.mapError]
  | none =>
    by_cases hroom : c.chunk.constants.size < 65536
    · rw [if_pos hroom, if_pos (by simp; omega)]
      rfl
    · rw [if_neg hroom, if_neg (by simp; omega)]
      rfl

theorem addConstant_of_yields {i : Nat} (h : (addConstant v).Yields marks c i c') :
    i = c.constantIndex v ∧ c' = c.pooled v ∧
      c'.chunk.constants.size ≤ max c.chunk.constants.size 65536 := by
  rw [Yields, run_addConstant] at h
  split at h
  next hroom =>
    cases h
    exact ⟨rfl, rfl, hroom⟩
  next => cases h

/-- An instruction whose operand is the index of a constant. -/
theorem pooled_of_yields {change : Int}
    (h : (do append op (← addConstant v) change).Yields marks c u c') :
    c' = (c.pooled v).appended op (c.constantIndex v) change := by
  obtain ⟨i, c1, hconstant, happend⟩ := yields_bind.mp h
  obtain ⟨rfl, rfl, -⟩ := addConstant_of_yields hconstant
  exact (yields_append.mp happend).symm

theorem yields_localSlot {slot : Nat} :
    (localSlot name).Yields marks c slot c' ↔ c.declaredSlot name = slot ∧
    c.declared name = c' := by
  rw [localSlot, yields_modifyGet, Prod.ext_iff]
  rfl

theorem yields_storeName : (storeName name).Yields marks c u c' ↔
      (c.declared name).appended .storeLocal (c.declaredSlot name) (-1) = c' := by
  simp [storeName, storeLocal, yields_bind, yields_localSlot, yields_append, and_assoc]

/-- A name is read from its slot if it is local, and otherwise from the globals. -/
theorem loadName_of_yields (h : (loadName name).Yields marks c u c') :
    (∃ slot : Nat, c.slot? name = some slot ∧ c' = c.appended .loadLocal slot 1) ∨
      c.slot? name = none ∧
        c' = (c.pooled (.str name)).appended .loadGlobal (c.constantIndex (.str name)) 1 := by
  rw [loadName, yields_get_bind] at h
  cases hslot : c.slot? name with
  | some slot =>
    rw [hslot] at h
    exact .inl ⟨slot, rfl, (yields_append.mp h).symm⟩
  | none =>
    rw [hslot] at h
    exact .inr ⟨rfl, pooled_of_yields h⟩

theorem yields_newLabel :
    newLabel.Yields marks c l c' ↔ (c.labels.size : Int) = l ∧ c.labelled = c' := by
  rw [newLabel, yields_modifyGet, Prod.ext_iff]
  rfl

theorem yields_namedLabel (h : c.namedLabels.lookup name = some l) :
    (namedLabel name).Yields marks c l' c' ↔ l = l' ∧ c = c' := by
  rw [namedLabel, yields_get_bind, h]
  exact yields_pure

/-- A label that is named for the first time is new. -/
theorem namedLabel_of_yields (h : (namedLabel name).Yields marks c l c')
    (hnew : c.namedLabels.lookup name = none) :
    l = c.labels.size ∧ c' = { c.labelled with namedLabels := (name, l) :: c.namedLabels } := by
  rw [namedLabel, yields_get_bind, hnew] at h
  obtain ⟨l', c1, hlabel, h⟩ := yields_bind.mp h
  obtain ⟨rfl, rfl⟩ := yields_newLabel.mp hlabel
  obtain ⟨_, c2, hmodify, h⟩ := yields_bind.mp h
  obtain rfl := yields_modify.mp hmodify
  obtain ⟨rfl, rfl⟩ := yields_pure.mp h
  exact ⟨rfl, rfl⟩

theorem yields_endReach : endReach.Yields marks c u c' ↔ c.ended = c' := yields_modify

theorem run_labelInfo_bind (l : Label) (f : LabelInfo → Emit α) (marks : Marks) (c : Code) :
    ((labelInfo l >>= f) marks c : Except Failure α × Code) = match c.label? l with
      | none => (.error (.fault .unknownLabel), c)
      | some info => f info marks c := by
  rw [run_bind, labelInfo, run_get_bind]
  cases c.label? l <;> rfl

theorem run_mark (l : Label) (marks : Marks) (c : Code) :
    (mark l marks c : Except Failure Unit × Code) =
      if c.inPrologue then (.error (.compile (.code c.name .prologueLabel)), c) else
      match c.label? l with
      | none => (.error (.fault .unknownLabel), c)
      | some info =>
        if info.position.isSome then (.error (.compile (.code c.name (.placedTwice l))), c)
        else if c.reachable = true ∧ 0 ≤ info.depth ∧ info.depth ≠ c.depth then
          (.error (.compile (.code c.name (.labelDepth l c.depth info.depth))),
            c.withLabel l ⟨some c.body.size, info.depth⟩)
        else (.ok (), c.marked l info) := by
  rw [mark, run_get_bind]
  split
  · rfl
  dsimp only
  rw [run_labelInfo_bind]
  cases c.label? l with
  | none => rfl
  | some info =>
    dsimp only
    split
    · rfl
    change ((if c.reachable = true then _ else _ : Emit Unit) marks
      (c.withLabel l ⟨some c.body.size, info.depth⟩) : Except Failure Unit × Code) = _
    cases hlive : c.reachable with
    | true =>
      by_cases hdepth : 0 ≤ info.depth ∧ info.depth ≠ c.depth
      · rw [if_pos rfl, if_pos hdepth, if_pos ⟨rfl, hdepth⟩]
        rfl
      · rw [if_pos rfl, if_neg hdepth, if_neg fun h => hdepth h.2]
        exact congrArg (Prod.mk _) (by simp [Code.marked, Code.withLabel, hlive])
    | false =>
      by_cases hdepth : 0 ≤ info.depth
      · simp only [hdepth, Bool.false_eq_true, false_and, if_false, if_true]
        exact congrArg (Prod.mk _) (by simp [Code.marked, Code.withLabel, hlive, hdepth])
      · simp only [hdepth, Bool.false_eq_true, false_and, if_false]
        exact congrArg (Prod.mk _) (by simp [Code.marked, Code.withLabel, hlive, hdepth])

theorem run_branchTo (l : Label) (d : Int) (marks : Marks) (c : Code) :
    (branchTo l d marks c : Except Failure Unit × Code) =
      if c.reachable then
        match c.label? l with
        | none => (.error (.fault .unknownLabel), c)
        | some info =>
          if info.position.isSome then
            if info.depth < 0 then (.error (.compile (.code c.name (.deadBackJump l))), c)
            else if info.depth ≠ d then
              (.error (.compile (.code c.name (.backJumpDepth l d info.depth))), c)
            else (.ok (), c)
          else if 0 ≤ info.depth ∧ info.depth ≠ d then
            (.error (.compile (.code c.name (.labelDepth l d info.depth))), c)
          else (.ok (), c.withLabel l { info with depth := d })
      else (.ok (), c) := by
  rw [branchTo, run_get_bind]
  split
  · rw [run_labelInfo_bind]
    cases c.label? l with
    | none => rfl
    | some info =>
      dsimp only
      repeat' split
      all_goals rfl
  · rfl

/-- A label is placed once, outside of the prologue, and its height must fit. -/
theorem marked_of_yields (h : (mark l).Yields marks c u c') :
    c.inPrologue = false ∧ ∃ info, c.label? l = some info ∧ info.position = none ∧
      (c.reachable = true → 0 ≤ info.depth → info.depth = c.depth) ∧ c' = c.marked l info := by
  rw [Yields, run_mark] at h
  split at h
  · cases h
  next houtside =>
    split at h
    · cases h
    next info hlabel =>
      split_ifs at h with hplaced hdepth <;> cases h
      refine ⟨by simpa using houtside, info, hlabel, by simpa using hplaced,
        fun hlive hknown => ?_, rfl⟩
      exact Decidable.byContradiction fun hne => hdepth ⟨hlive, hknown, hne⟩

theorem branches_of_yields (h : (branchTo l d).Yields marks c u c') : c.Branches l d c' := by
  rw [Yields, run_branchTo] at h
  split at h
  next hlive =>
    split at h
    · cases h
    next info hlabel =>
      split_ifs at h with hplaced hdead hdepth hdepth <;> cases h
      · exact .backward hlive hlabel hplaced (by omega) (by simpa using hdepth)
      · refine .forward hlive hlabel (by simpa using hplaced) fun hknown => ?_
        exact Decidable.byContradiction fun hne => hdepth ⟨hknown, hne⟩
  next hdead =>
    cases h
    exact .dead (by simpa using hdead)

theorem jump_of_yields (h : (jump l).Yields marks c u c') :
    ∃ c1, c.Branches l c.depth c1 ∧ c' = (c1.appended .jump l 0).ended := by
  rw [jump, yields_get_bind, yields_bind] at h
  obtain ⟨_, c1, hbranch, h⟩ := h
  obtain ⟨_, c2, happend, hend⟩ := yields_bind.mp h
  obtain rfl := yields_append.mp happend
  obtain rfl := yields_endReach.mp hend
  exact ⟨c1, branches_of_yields hbranch, rfl⟩

theorem popJump_of_yields (h : (popJump op l).Yields marks c u c') :
    (c.appended op l (-1)).Branches l (height (c.depth - 1)) c' := by
  obtain ⟨_, c1, happend, h⟩ := yields_bind.mp h
  obtain rfl := yields_append.mp happend
  rw [yields_get_bind] at h
  exact branches_of_yields h

theorem jumpOrPop_of_yields (h : (jumpOrPop op l).Yields marks c u c') :
    ∃ c1, c.Branches l c.depth c1 ∧ c' = c1.appended op l (-1) := by
  rw [jumpOrPop, yields_get_bind, yields_bind] at h
  obtain ⟨_, c1, hbranch, happend⟩ := h
  obtain rfl := yields_append.mp happend
  exact ⟨c1, branches_of_yields hbranch, rfl⟩

theorem branchesAll_of_yields (h : (branchToAll d ls).Yields marks c u c') :
    Code.BranchesAll d c ls c' := by
  induction ls generalizing c with
  | nil =>
    obtain ⟨-, rfl⟩ := yields_pure.mp h
    exact .nil
  | cons l rest ih =>
    rw [branchToAll] at h
    obtain ⟨hl, h⟩ | ⟨hl, h⟩ := yields_ite.mp h
    · obtain ⟨_, c1, hbranch, hrest⟩ := yields_bind.mp h
      exact .cons hl (branches_of_yields hbranch) (ih hrest)
    · obtain rfl : l = Label.none := by simpa using hl
      exact .skip (ih (by simpa [yields_bind, yields_pure] using h))

/-- A jump table records one height for all its labels. -/
theorem jumpTable_of_yields (h : (jumpTable ls l).Yields marks c u c') :
    c.inPrologue = false ∧ ∃ c1 c2,
      Code.BranchesAll (height (c.depth - 1)) (c.appended .jumpTable c.tables.length (-1)) ls c1 ∧
      c1.Branches l c1.depth c2 ∧ c' = (c2.tabled ⟨ls, l⟩).ended := by
  rw [jumpTable, yields_get_bind] at h
  obtain ⟨-, h⟩ | ⟨hprologue, h⟩ := yields_ite.mp h
  · simp [yields_bind, yields_fail] at h
  rw [yields_get_bind] at h
  obtain ⟨_, c0, happend, h⟩ := yields_bind.mp h
  obtain rfl := yields_append.mp happend
  rw [yields_get_bind] at h
  obtain ⟨_, c1, hall, h⟩ := yields_bind.mp h
  rw [yields_get_bind] at h
  obtain ⟨_, c2, hbranch, h⟩ := yields_bind.mp h
  obtain ⟨_, c3, htable, hend⟩ := yields_bind.mp h
  obtain rfl := yields_modify.mp htable
  obtain rfl := yields_endReach.mp hend
  exact ⟨by simpa using hprologue, c1, c2, branchesAll_of_yields hall, branches_of_yields hbranch,
    rfl⟩

theorem yields_ret : ret.Yields marks c u c' ↔ (c.appended .ret 0 (-1)).ended = c' := by
  simp [ret, yields_bind, yields_append, yields_endReach]

theorem yields_invalidAction :
    invalidAction.Yields marks c u c' ↔ (c.appended .invalidAction 0 (-1)).ended = c' := by
  simp [invalidAction, yields_bind, yields_append, yields_endReach]

theorem yields_report {event : Event} :
    (report event).Yields marks c u c' ↔
      c.noted c.emitting (c.events.push event) c.observations = c' :=
  yields_modify

/-- Within the prologue a prologue is an emission like any other. -/
theorem prologue_of_inside (x : Emit Unit) (marks : Marks) (h : c.inPrologue = true) :
    (prologue x marks c : Except Failure Unit × Code) = x marks c := by
  rw [prologue, if_pos h]

/-- The emission of a prologue goes on behind the instructions that are there already. -/
theorem prologue_of_outside (x : Emit Unit) (marks : Marks) (h : c.inPrologue = false) :
    (prologue x marks c : Except Failure Unit × Code) =
      match x marks c.opened with
      | (.error failure, inner) => (.error failure, c.closed inner)
      | (.ok (), inner) =>
        if inner.depth = 0 then (.ok (), c.closed inner)
        else (.error (.compile (.code c.name (.prologueDepth inner.depth))), c.closed inner) := by
  rcases hx : (x marks c.opened : Except Failure Unit × Code) with ⟨result, inner⟩
  have hx' : (x marks { c with
      body := c.prologue, depth := 0, reachable := true, inPrologue := true } :
        Except Failure Unit × Code) = (result, inner) := hx
  rw [prologue, h, if_neg Bool.false_ne_true, hx']
  cases result <;> rfl

theorem prologue_of_yields (houtside : c.inPrologue = false)
    (h : (prologue x).Yields marks c u c') :
    ∃ inner, x.Yields marks c.opened () inner ∧ inner.depth = 0 ∧ c' = c.closed inner := by
  rcases hx : (x marks c.opened : Except Failure Unit × Code) with ⟨result, inner⟩
  rw [Yields, prologue_of_outside x marks houtside, hx] at h
  cases result with
  | error failure => cases h
  | ok =>
    by_cases hdepth : inner.depth = 0
    · simp only [hdepth, if_true] at h
      cases h
      exact ⟨inner, hx, hdepth, rfl⟩
    · simp only [hdepth, if_false] at h
      cases h

theorem run_within {x : Emit α} {result : Except Failure α} {c1 : Code}
    (h : (x marks (c.noted (n.lazySignature :: c.emitting) c.events c.observations) :
      Except Failure α × Code) = (result, c1)) : (within n x marks c : Except Failure α × Code) =
      (result, c1.noted c.emitting c1.events c1.observations) :=
  congrArg (fun p : Except Failure α × Code =>
    (p.1, p.2.noted c.emitting p.2.events p.2.observations)) h

/-- What a cache does with an expression in a region: it takes over, or the next interceptor is
asked. -/
def relay (id : Nat) (r : Region) (n : Node) (x : Emit Unit) (length : Nat) : Emit Bool := do
  if ← takesOver id n then
    cached r.ordinal n x
    return true
  else
    match r.next with
    | some next => intercept n x length next
    | none => return false

theorem interceptable_of_interceptor {first : Interceptor} (h : c.interceptor = some first) :
    (interceptable n x marks c : Except Failure Unit × Code) =
      (do
        if ← intercept n x (c.regions.length + 2) first then pure () else x : Emit Unit)
        marks c := by
  cases c
  cases h
  rfl

/-- How an expression that started in a buffer leaves the gate with the result and the buffer of its
emission: its promise is checked, and an observer is told how it ended. -/
def gated (c : Code) (n : Node) (c1 : Code) : Except Failure Unit → Except Failure Unit × Code
  | .error failure => (.error failure, c1.noted c.emitting c1.events c1.observations)
  | .ok () =>
    (if (c1.reachable && height (c1.depth - c.depth) != n.effect) = true then
        .error (.compile (.code c1.name
          (.stackEffect n.signature (height (c1.depth - c.depth)) n.effect)))
      else .ok (),
    c1.noted c.emitting
      (c1.events.push (.emitted c1.name n (height (c1.depth - c.depth)) c1.reachable))
      (if c1.observing then c1.observations.push
        ⟨c.emitting.head?, n, height (c1.depth - c.depth), c1.reachable⟩ else c1.observations))

/-- The gate of an expression passes on to what may intercept it. -/
theorem run_expression {result : Except Failure Unit} {c1 : Code}
    (h : (interceptable n x marks (c.noted (n.lazySignature :: c.emitting)
      c.events c.observations) : Except Failure Unit × Code) = (result, c1)) :
    (expression n x marks c : Except Failure Unit × Code) = gated c n c1 result := by
  rw [expression, run_get_bind, run_get_bind, run_bind, run_within h]
  cases result with
  | error failure => rfl
  | ok u =>
    dsimp only [gated]
    rw [run_get_bind]
    cases hobserving : c1.observing <;>
      cases hbad : (c1.reachable && height (c1.depth - c.depth) != n.effect) <;>
      simp only [Code.noted_observing, Code.noted_reachable, Code.noted_depth, hobserving, hbad,
        if_true, if_false, Bool.false_eq_true] <;> rfl

theorem gate_of_yields (h : (expression n x).Yields marks c u c') :
    ∃ c1, (interceptable n x).Yields marks
        (c.noted (n.lazySignature :: c.emitting) c.events c.observations) () c1 ∧
      (c1.reachable = true → height (c1.depth - c.depth) = n.effect) ∧
      ∃ events, c' = c1.noted c.emitting events (if c1.observing then c1.observations.push
        ⟨c.emitting.head?, n, height (c1.depth - c.depth), c1.reachable⟩ else c1.observations) := by
  rcases hrun : (interceptable n x marks (c.noted (n.lazySignature :: c.emitting) c.events
    c.observations) : Except Failure Unit × Code) with ⟨result, c1⟩
  rw [Yields, run_expression hrun] at h
  cases result with
  | error failure => cases h
  | ok u =>
    obtain ⟨hkept, rfl⟩ := Prod.mk.inj h
    refine ⟨c1, hrun, fun hlive => ?_, _, rfl⟩
    by_contra hbad
    rw [if_pos (by simpa [hlive] using hbad)] at hkept
    cases hkept

theorem expression_of_yields (h : (expression n x).Yields marks c u c') :
    ∃ c1, (interceptable n x).Yields marks
        (c.noted (n.lazySignature :: c.emitting) c.events c.observations) () c1 ∧
      (c1.reachable = true → height (c1.depth - c.depth) = n.effect) ∧
      ∃ events observations, c' = c1.noted c.emitting events observations := by
  obtain ⟨c1, hinner, hpromise, events, hend⟩ := gate_of_yields h
  exact ⟨c1, hinner, hpromise, events, _, hend⟩

theorem yields_interceptable (hnone : c.interceptor = none) :
    (interceptable n x).Yields marks c u c' ↔ x.Yields marks c u c' := by
  rw [interceptable, yields_get_bind, hnone]

end Emit

namespace Node

section

variable (gate : Node → Emit Unit → Emit Unit)

/-- The code of the callee of a call; it tells whether there is a receiver on the stack. -/
def emitCalleeBy (callee : Node) (method : Bool) : Emit Bool :=
  match callee, method with
  | .attr base name, true => do
    gate base (base.emitBy gate)
    Emit.loadMethod name
    pure true
  | callee, _ => do
    gate callee (callee.emitBy gate)
    pure false

theorem emitBy_call (callee : Node) (args : List Node) (star : Option Node)
    (keywords : List (Text × Node)) (doubleStar : Option Node) (method : Bool) :
    (Node.call callee args star keywords doubleStar method).emitBy gate = (do
      let withReceiver ← emitCalleeBy gate callee method
      emitAllBy gate args
      if star.isNone && doubleStar.isNone && keywords.isEmpty then
        if withReceiver then Emit.callMethod args.length else Emit.call args.length
      else
        Emit.buildList args.length
        emitStarBy gate star
        emitKeywordsBy gate keywords
        Emit.buildDict keywords.length
        emitDoubleStarBy gate doubleStar
        Emit.callEx withReceiver) := by
  cases callee <;> cases method <;> simp only [emitBy, emitCalleeBy, bind_assoc, pure_bind]

theorem emitBy_compare_single (subject : Node) (op : CompareOp) (n : Node) :
    (Node.compare subject [(op, n)]).emitBy gate = (do
      gate subject (subject.emitBy gate)
      gate n (n.emitBy gate)
      Emit.compare op.code) := by rw [emitBy]

theorem emitBy_compare_chain (subject : Node) {links : List (CompareOp × Node)}
    (h : links.length ≠ 1) :
    (Node.compare subject links).emitBy gate = (do
      gate subject (subject.emitBy gate)
      let cleanup ← Emit.newLabel
      let done ← Emit.newLabel
      emitLinksBy gate cleanup links
      Emit.jump done
      Emit.mark cleanup
      Emit.rot2
      Emit.pop
      Emit.mark done) := by
  rw [emitBy]
  rintro op operand rfl
  exact h rfl

theorem emitLinksBy_cons (cleanup : Label) (op : CompareOp) (n : Node) (link : CompareOp × Node)
    (rest : List (CompareOp × Node)) :
    emitLinksBy gate cleanup ((op, n) :: link :: rest) = (do
      gate n (n.emitBy gate)
      Emit.dup
      Emit.rot3
      Emit.compare op.code
      Emit.jumpIfFalseOrPop cleanup
      emitLinksBy gate cleanup (link :: rest)) := by
  rw [emitLinksBy]
  simp

theorem emitOperandsBy_cons (junction : Junction) (done : Label) (n m : Node) (rest : List Node) :
    emitOperandsBy gate junction done (n :: m :: rest) = (do
      gate n (n.emitBy gate)
      Emit.leave junction done
      emitOperandsBy gate junction done (m :: rest)) := by
  rw [emitOperandsBy]
  simp

theorem emitStepsBy_cons (n m : Node) (rest : List Node) :
    emitStepsBy gate (n :: m :: rest) = (do
      gate n (n.emitBy gate)
      if (← get).reachable then
        Emit.popEffect n.effect
        emitStepsBy gate (m :: rest)) := by
  rw [emitStepsBy]
  simp

end

abbrev emitCallee (callee : Node) (method : Bool) : Emit Bool :=
  emitCalleeBy Emit.expression callee method

end Node

end ExprBackend
