import ExprBackend.Proofs.Composition

/-! # What comes of emissions

Whatever is emitted, a buffer changes step by step: instructions, constants and
locals are added, and labels are made, jumped to and placed. A transitive relation
that holds of each of these changes holds between the buffers before and after
every emission. It may depend on the labels that are at hand, and say less of
emissions that fail.
-/

namespace ExprBackend

open List

/-- A relation between a buffer and those that come of it by what is done to labels, constants and
instructions, unless these are about variables. -/
structure Code.Progress (R : Bool → List Label → Code → Code → Prop) : Prop where
  refl : ∀ {ok own} c, R ok own c c
  trans : ∀ {ok own c c' c''}, R true own c c' → R ok own c' c'' → R ok own c c''
  appended : ∀ {own} c {op operand change}, op.named = false →
    R true own c (c.appended op operand change)
  pooled : ∀ {own} c v, R true own c (c.pooled v)
  /-- A label that is made is at hand from then on. -/
  labelled : ∀ {ok own c c'}, R ok (c.labels.size :: own) c.labelled c' → R ok own c c'
  ended : ∀ {own} c, R true own c c.ended
  branches : ∀ {own l d c c'}, l ∈ own → c.Branches l d c' → R true own c c'
  marked : ∀ {own l c info}, l ∈ own → c.inPrologue = false → c.label? l = some info →
    info.position = none → (c.reachable = true → 0 ≤ info.depth → info.depth = c.depth) →
    R true own c (c.marked l info)
  /-- A label is placed even if the height does not fit. -/
  misplaced : ∀ {own l c info}, c.inPrologue = false → c.label? l = some info →
    info.position = none → R false own c (c.withLabel l ⟨some c.body.size, info.depth⟩)

/-- Whatever comes of an emission, buffers before and after it are related. -/
def Emit.Always {α : Type} (R : Bool → List Label → Code → Code → Prop) (own : List Label)
    (x : Emit α) : Prop :=
  ∀ ⦃marks : Marks⦄ ⦃c : Code⦄ ⦃result : Except Failure α⦄ ⦃c' : Code⦄,
    (x marks c : Except Failure α × Code) = (result, c') → R result.toBool own c c'

namespace Code.Progress

open Emit

section

variable {R : Bool → List Label → Code → Code → Prop} (hR : Progress R) {own : List Label}
  {α β : Type} {op : Opcode} {l : Label}

include hR

theorem weaken {ok : Bool} {c c' : Code} (h : R true own c c') : R ok own c c' :=
  hR.trans h (hR.refl c')

theorem pure (a : α) : Always R own (Pure.pure a : Emit α) := by
  intro marks c result c' h
  cases h
  exact hR.refl c

theorem throw (failure : Failure) : Always R own (MonadExcept.throw failure : Emit α) := by
  intro marks c result c' h
  cases h
  exact hR.refl c

theorem get : Always R own (MonadState.get : Emit Code) := by
  intro marks c result c' h
  cases h
  exact hR.refl c

omit hR in
theorem update {f : Code → Code} (hf : ∀ c, R true own c (f c)) :
    Always R own (modify f : Emit PUnit) := by
  intro marks c result c' h
  cases h
  exact hf c

theorem bind {x : Emit α} {f : α → Emit β} (hx : Always R own x) (hf : ∀ a, Always R own (f a)) :
    Always R own (x >>= f) := by
  intro marks c result c' h
  rcases hrun : (x marks c : Except Failure α × Code) with ⟨e | a, c1⟩
  · have herror : ((x >>= f) marks c : Except Failure β × Code) = (.error e, c1) :=
      bind_of_error hrun
    cases herror.symm.trans h
    exact hx hrun
  · have hok : ((x >>= f) marks c : Except Failure β × Code) = f a marks c1 := bind_of_ok hrun
    exact hR.trans (hx hrun) (hf a (hok.symm.trans h))

omit hR in
theorem ite {p : Prop} [Decidable p] {x y : Emit α} (hx : Always R own x) (hy : Always R own y) :
    Always R own (if p then x else y) := by
  split <;> assumption

theorem fail (cause : CodeError) : Always R own (Emit.fail cause : Emit α) :=
  hR.bind hR.get fun _ => hR.throw _

theorem instr (hop : op.named = false) {operand change : Int} :
    Always R own (Emit.append op operand change) := update fun c => hR.appended c hop

theorem addConstant (v : Value) : Always R own (Emit.addConstant v) := by
  intro marks c result c' h
  rw [run_addConstant] at h
  cases h
  exact hR.weaken (hR.pooled c v)

theorem loadConst (v : Value) : Always R own (Emit.loadConst v) :=
  hR.bind (hR.addConstant v) fun _ => hR.instr rfl

theorem newLabel {f : Label → Emit β} (hf : ∀ l, Always R (l :: own) (f l)) :
    Always R own (Emit.newLabel >>= f) :=
  fun _ _ _ _ h => hR.labelled (hf _ h)

theorem endReach : Always R own Emit.endReach := update hR.ended

/-- A label is placed outside of the prologue only, and there at the end of the body. -/
theorem mark (hl : l ∈ own) : Always R own (Emit.mark l) := by
  intro marks c result c' h
  cases result with
  | ok =>
    obtain ⟨houtside, info, hlabel, hunplaced, hdepth, rfl⟩ := marked_of_yields h
    exact hR.marked hl houtside hlabel hunplaced hdepth
  | error =>
    rw [run_mark] at h
    split at h
    · cases h
      exact hR.refl c
    next houtside =>
      split at h
      · cases h
        exact hR.refl c
      next info hlabel =>
        split_ifs at h with hplaced <;> cases h
        · exact hR.refl c
        · exact hR.misplaced (by simpa using houtside) hlabel (by simpa using hplaced)

/-- Recording a jump changes what is known of the height at a label, not its place. -/
theorem branchTo (hl : l ∈ own) (depth : Int) : Always R own (Emit.branchTo l depth) := by
  intro marks c result c' h
  cases result with
  | ok => exact hR.branches hl (branches_of_yields h)
  | error =>
    rw [run_branchTo] at h
    split at h
    · split at h
      · cases h
        exact hR.refl c
      · split_ifs at h <;> cases h <;> exact hR.refl c
    · cases h

theorem jump (hl : l ∈ own) : Always R own (Emit.jump l) :=
  hR.bind hR.get fun _ => hR.bind (hR.branchTo hl _) fun _ => hR.bind (hR.instr rfl) fun _ =>
    hR.endReach

theorem popJump (hop : op.named = false) (hl : l ∈ own) : Always R own (Emit.popJump op l) :=
  hR.bind (hR.instr hop) fun _ => hR.bind hR.get fun _ => hR.branchTo hl _

theorem jumpOrPop (hop : op.named = false) (hl : l ∈ own) : Always R own (Emit.jumpOrPop op l) :=
  hR.bind hR.get fun _ => hR.bind (hR.branchTo hl _) fun _ => hR.instr hop

theorem sequential : Sequential fun own _ x _ => Always R own x where
  pure := hR.pure
  bind := hR.bind
  instr hop := hR.instr hop
  addName _ := hR.addConstant _
  newLabel := hR.newLabel
  mark := hR.mark
  jump := hR.jump
  popJump _ _ hl hop := hR.popJump hop hl
  jumpOrPop _ _ hl hop := hR.jumpOrPop hop hl
  look hf := hR.bind hR.get fun c => hf c c rfl rfl rfl
  fail := hR.fail

end

/-! ## Relations that do not depend on labels -/

section

variable {R : Code → Code → Prop} (hR : Progress fun _ _ => R) {own : List Label} {op : Opcode}

include hR

theorem markAny (l : Label) : Always (fun _ _ => R) [] (Emit.mark l) :=
  show Always (fun _ _ => R) [l] (Emit.mark l) from hR.mark (mem_singleton_self l)

theorem branchToAny (l : Label) (depth : Int) : Always (fun _ _ => R) own (Emit.branchTo l depth) :=
  show Always (fun _ _ => R) [l] (Emit.branchTo l depth) from
    hR.branchTo (mem_singleton_self l) depth

theorem jumpAny (l : Label) : Always (fun _ _ => R) [] (Emit.jump l) :=
  show Always (fun _ _ => R) [l] (Emit.jump l) from hR.jump (mem_singleton_self l)

theorem popJumpAny (hop : op.named = false) (l : Label) :
    Always (fun _ _ => R) [] (Emit.popJump op l) :=
  show Always (fun _ _ => R) [l] (Emit.popJump op l) from hR.popJump hop (mem_singleton_self l)

theorem jumpOrPopAny (hop : op.named = false) (l : Label) :
    Always (fun _ _ => R) [] (Emit.jumpOrPop op l) :=
  show Always (fun _ _ => R) [l] (Emit.jumpOrPop op l) from hR.jumpOrPop hop (mem_singleton_self l)

theorem namedLabel (hcalled : ∀ (c : Code) namedLabels, R c { c with namedLabels }) (name : Text) :
    Always (fun _ _ => R) own (Emit.namedLabel name) := by
  refine hR.bind hR.get fun c => ?_
  split
  · exact hR.pure _
  · exact hR.newLabel fun l => hR.bind (update fun c => hcalled c _) fun _ => hR.pure l

/-- A jump to the top of the loop. -/
theorem loop (hcalled : ∀ (c : Code) namedLabels, R c { c with namedLabels }) :
    Always (fun _ _ => R) own (do Emit.jump (← Emit.namedLabel loopLabel)) :=
  hR.bind (hR.namedLabel hcalled _) fun l => show Always (fun _ _ => R) [l] (Emit.jump l) from
    hR.jump (mem_singleton_self l)

theorem branchToAll (depth : Int) (ls : List Label) :
    Always (fun _ _ => R) own (Emit.branchToAll depth ls) := by
  induction ls with
  | nil => exact hR.pure ()
  | cons l rest ih => exact ite (hR.bind (hR.branchToAny l depth) fun _ => ih) ih

theorem jumpTable (htabled : ∀ (c : Code) t, R c (c.tabled t)) (targets : List Label)
    (default : Label) : Always (fun _ _ => R) own (Emit.jumpTable targets default) := by
  have hrest : Always (fun _ _ => R) own (do
      Emit.append .jumpTable (← MonadState.get).tables.length (-1)
      Emit.branchToAll (← MonadState.get).depth targets
      Emit.branchTo default (← MonadState.get).depth
      modify fun c => { c with tables := c.tables ++ [⟨targets, default⟩] }
      Emit.endReach) :=
    hR.bind hR.get fun _ => hR.bind (hR.instr rfl) fun _ => hR.bind hR.get fun _ =>
      hR.bind (hR.branchToAll ..) fun _ => hR.bind hR.get fun _ => hR.bind (hR.branchToAny ..)
        fun _ => hR.bind (update fun c => htabled c _) fun _ => hR.endReach
  exact hR.bind hR.get fun _ => ite (hR.bind (hR.fail _) fun _ => hrest) hrest

end

end Code.Progress

/-- A relation of that kind that holds of all changes which the code of expressions makes. -/
structure Code.Expansion (R : Bool → List Label → Code → Code → Prop) :
    Prop extends Progress R where
  coded : ∀ {own} c op operand change, R true own c (c.appended op operand change)
  appended c _ _ _ _ := coded c ..
  declared : ∀ {own} c name, R true own c (c.declared name)
  noted : ∀ {own} (c : Code) scratch regions events observations,
    R true own c { c with scratch, regions, events, observations }
  within : ∀ {ok own c c' emitting emitting'}, R ok own { c with emitting } c' →
    R ok own c { c' with emitting := emitting' }
  headed : ∀ {own} (c : Code) i j maxDepth,
    R true own c { c with prologue := (c.prologue.push i).push j, maxDepth }
  loop : ∀ {own}, Emit.Always R own (do Emit.jump (← Emit.namedLabel loopLabel))

namespace Code.Expansion

open Emit Progress

variable {R : Bool → List Label → Code → Code → Prop} (hR : Expansion R) {own : List Label}

include hR

theorem append (op : Opcode) (operand change : Int) :
    Always R own (Emit.append op operand change) :=
  update fun c => hR.coded c ..

theorem localSlot (name : Text) : Always R own (Emit.localSlot name) := by
  intro marks c result c' h
  cases h
  exact hR.declared c name

theorem loadName (name : Text) : Always R own (Emit.loadName name) := by
  refine hR.bind hR.get fun c => ?_
  split
  · exact hR.append ..
  · exact hR.bind (hR.addConstant _) fun _ => hR.append ..

theorem storeName (name : Text) : Always R own (Emit.storeName name) :=
  hR.bind (hR.localSlot name) fun _ => hR.append ..

theorem callEx (method : Bool) : Always R own (Emit.callEx method) :=
  ite (hR.append ..) (hR.append ..)

theorem ret : Always R own Emit.ret := hR.bind (hR.append ..) fun _ => hR.endReach

theorem transfer : Always R own Emit.transfer :=
  hR.bind (hR.append ..) fun _ => hR.bind (hR.storeName _) fun _ =>
    hR.bind (hR.storeName _) fun _ => hR.loop

/-- The dictionary of a call is emptied before all other code. -/
theorem cacheSlot : Always R own Emit.cacheSlot := by
  refine hR.bind hR.get fun c => ?_
  split
  · exact hR.pure _
  refine hR.bind (hR.localSlot _) fun slot => hR.bind ?_ fun _ => hR.pure slot
  intro marks c result c' h
  cases hinside : c.inPrologue with
  | true =>
    rw [prologue_of_inside _ _ hinside] at h
    exact hR.bind (hR.append ..) (fun _ => hR.append ..) h
  | false =>
    cases c
    cases hinside
    cases h
    exact hR.headed ..

/-- Emissions between whose buffers the relation holds can be put together. -/
theorem congruence : Congruence fun own _ x _ => Always R own x where
  toSequential := hR.sequential
  append := hR.append
  addConstant := hR.addConstant
  localSlot := hR.localSlot
  loadName := hR.loadName
  transfer := @fun _ => hR.transfer

theorem kept : Kept fun own _ x => Always R own x where
  congruence := hR.congruence
  read := @fun _ _ _ _ _ h => by
    cases h
    exact hR.refl _
  stop _ := hR.throw _
  note h := update fun c => by
    obtain ⟨_, _, _, _, heq⟩ := h c
    rw [heq]
    exact hR.noted ..
  within hx := @fun marks c result c' h => by
    cases h
    exact hR.within (hx rfl)
  cacheSlot := @fun _ => hR.cacheSlot

/-- The relation holds between the buffers before and after an expression. -/
theorem related (n : Node) :
    n.Related (fun own _ x _ => Always R own x) Emit.expression Emit.expression :=
  n.related_of_kept hR.kept

end Code.Expansion

end ExprBackend
