import ExprBackend.Proofs.Growth
import ExprBackend.Proofs.Perform
import Mathlib.Data.List.Nodup

/-! # Buffers that are ready for an expression

Between the expressions that are emitted into it, a buffer is in an orderly state:
its locals are the names in scope, its height is that of a real stack, and no
label is open but those of the expressions around. An emission keeps that order;
what it adds to the height is known where the code can be reached, and code that
cannot be reached stays so.
-/

namespace ExprBackend

variable {c c' : Code} {change d : Int} {ctx : Context} {l : Label} {name : Text} {v : Value}

/-- What a buffer holds for those that intercept emissions. -/
structure Extras where
  interceptor : Option Interceptor
  regions : List (Nat × Region)
  scratch : List (Text × Scratch)
  prologue : Array Instr
  locals : List Text

def Code.extras (c : Code) : Extras := ⟨c.interceptor, c.regions, c.scratch, c.prologue, c.locals⟩

/-- How expressions are emitted into a buffer. -/
structure Mode where
  /-- The names that expressions may use. -/
  Visible : Text → Prop
  /-- What the buffer holds for interceptors, given the names that have been assigned. -/
  Interception : List Text → Extras → Prop
  /-- The label at the top of the loop in which the expressions stand. -/
  head : Option Label
  /-- The marks with which expressions may be emitted. -/
  Marked : Marks → Prop
  /-- In a loop all names that are ever assigned count from the start. -/
  settled : ∀ {names volatile : List Text} {extras : Extras}, head.isSome = true →
    Interception volatile extras → Interception (volatile ++ names) extras
  /-- Locals of other names are of no concern to interceptors. -/
  declares : ∀ {volatile locals : List Text} {extras : Extras} {name : Text}, Visible name →
    extras.locals <+: locals → (∀ other, other ∈ locals ↔ other ∈ extras.locals ∨ other = name) →
    Interception volatile extras → Interception volatile { extras with locals }

variable {mode : Mode}

namespace Code

/-- A buffer in an orderly state between two expressions. -/
structure Ready (mode : Mode) (ctx : Context) (c : Code) : Prop where
  outside : c.inPrologue = false
  nodup : c.locals.Nodup
  scope : ∀ name, mode.Visible name → (name ∈ c.locals ↔ name ∈ ctx.scope)
  receivers : Value.noReceiver ∉ c.chunk.constants
  constants_le : c.chunk.constants.size ≤ c.body.size
  interception : mode.Interception ctx.volatile c.extras
  loop : ∀ l, mode.head = some l →
    c.namedLabels.lookup loopLabel = some l ∧ actionName ∈ c.locals ∧ argumentName ∈ c.locals ∧
      ∃ info p, c.label? l = some info ∧ info.position = some p ∧ p ≤ c.body.size ∧ info.depth = 0
  depth_nonneg : c.reachable = true → 0 ≤ c.depth
  le_depth : -(131072 * c.body.size : Int) ≤ c.depth
  depth_le : c.depth ≤ c.body.size
  maxDepth_nonneg : 0 ≤ c.maxDepth
  maxDepth_le : c.maxDepth ≤ c.body.size + 1

/-- An emission has added instructions, at least so many, that change the height by a known amount
where they can be reached. It has touched no labels but its own. -/
structure Flow (own : List Label) (count : Nat) (change : Int) (c c' : Code) : Prop where
  labels : ∀ l info, l ∉ own → c.label? l = some info → c'.label? l = some info
  size_le : c.body.size + count ≤ c'.body.size
  dead : c.reachable = false → c'.reachable = false
  depth : c.reachable = true → c'.reachable = true → c'.depth = c.depth + change

namespace Flow

variable {own own' : List Label} {c'' : Code} {count count' : Nat} {change' : Int}

theorem refl (c : Code) : c.Flow own 0 0 c :=
  ⟨fun _ _ _ h => h, Nat.le_refl _, id, fun _ _ => (Int.add_zero _).symm⟩

/-- Code that can be reached follows only code that can be reached. -/
theorem reachable (h : c.Flow own count change c') (hlive : c'.reachable = true) :
    c.reachable = true := by
  cases hc : c.reachable with
  | true => rfl
  | false =>
    rw [h.dead hc] at hlive
    cases hlive

theorem trans (h : c.Flow own count change c') (h' : c'.Flow own count' change' c'') :
    c.Flow own (count + count') (change + change') c'' where
  labels l info hl hlabel := h'.labels l info hl (h.labels l info hl hlabel)
  size_le := by
    have := h.size_le
    have := h'.size_le
    omega
  dead hdead := h'.dead (h.dead hdead)
  depth hlive hlive' := by
    have := h.depth hlive (h'.reachable hlive')
    have := h'.depth (h'.reachable hlive') hlive'
    omega

theorem mono (h : c.Flow own count change c') (hown : own ⊆ own') : c.Flow own' count change c' :=
  { h with labels := fun l info hl => h.labels l info fun hmem => hl (hown hmem) }

end Flow

namespace Ready

/-- The height of code that is small enough to be assembled is kept without loss. -/
theorem height_add (h : c.Ready mode ctx) (hsize : c.body.size ≤ 65535) (hlow : -131072 ≤ change)
    (hhigh : change ≤ 1) : height (c.depth + change) = c.depth + change := by
  have := h.le_depth
  have := h.depth_le
  exact height_eq (by omega)

/-- An instruction that a stack of that height has the operands for keeps the order. -/
theorem appended (h : c.Ready mode ctx) (hsize : c.body.size ≤ 65535) (op : Opcode) (operand : Int)
    (hlow : -131072 ≤ change) (hhigh : change ≤ 1)
    (hstack : c.reachable = true → 0 ≤ c.depth + change) :
    (c.appended op operand change).Ready mode ctx := by
  have hheight := h.height_add hsize hlow hhigh
  have hlower := h.le_depth
  have hupper := h.depth_le
  have hmax := h.maxDepth_le
  have hmax' := h.maxDepth_nonneg
  have hconstants := h.constants_le
  refine ⟨h.outside, h.nodup, h.scope, h.receivers, ?_, h.interception, fun l hl => ?_, ?_, ?_, ?_,
    ?_, ?_⟩
  · simp only [appended_chunk, appended_body, Array.size_push]
    omega
  · obtain ⟨hname, haction, hargument, info, p, hlabel, hposition, hle, hzero⟩ := h.loop l hl
    refine ⟨hname, haction, hargument, info, p, hlabel, hposition, ?_, hzero⟩
    simp only [appended_body, Array.size_push]
    omega
  · intro hlive
    rw [appended_depth, hheight]
    exact hstack hlive
  · simp only [appended_depth, appended_body, Array.size_push, hheight]
    omega
  · simp only [appended_depth, appended_body, Array.size_push, hheight]
    omega
  · simp only [appended_maxDepth]
    omega
  · simp only [appended_maxDepth, appended_body, Array.size_push, hheight]
    omega

/-- An instruction changes the height by the amount it is appended with. -/
theorem append (h : c.Ready mode ctx) (op : Opcode) (operand : Int) (hlow : -131072 ≤ change)
    (hhigh : change ≤ 1) (hneed : c.reachable = true → -change ≤ c.depth)
    (hsize : (c.appended op operand change).body.size ≤ 65535) :
    (c.appended op operand change).Ready mode ctx ∧
      c.Flow [] 1 change (c.appended op operand change) := by
  have hsize1 : c.body.size ≤ 65535 := Nat.le_trans (c.grows_appended ..).size_le hsize
  refine ⟨h.appended hsize1 op operand hlow hhigh fun hc => ?_,
    fun _ _ _ h => h, by simp, id, fun _ _ => h.height_add hsize1 hlow hhigh⟩
  have := hneed hc
  omega

theorem ended (h : c.Ready mode ctx) : c.ended.Ready mode ctx :=
  { h with depth_nonneg := fun hlive => by cases hlive }

theorem noted (h : c.Ready mode ctx) (emitting : List LazySignature) (events : Array Event)
    (observations : Array Observation) : (c.noted emitting events observations).Ready mode ctx :=
  ⟨h.outside, h.nodup, h.scope, h.receivers, h.constants_le, h.interception, h.loop,
    h.depth_nonneg, h.le_depth, h.depth_le, h.maxDepth_nonneg, h.maxDepth_le⟩

/-- Labels may change as long as those that are placed do not. -/
theorem of_labels {labels : Array LabelInfo} (h : c.Ready mode ctx)
    (hgrows : c.Grows { c with labels }) : ({ c with labels } : Code).Ready mode ctx :=
  { h with
    loop := fun l hl => by
      obtain ⟨hname, haction, hargument, info, p, hlabel, hposition, hrest⟩ := h.loop l hl
      exact ⟨hname, haction, hargument, info, p,
        hgrows.placed l info hlabel (by rw [hposition]; rfl), hposition, hrest⟩ }

theorem labelled (h : c.Ready mode ctx) : c.labelled.Ready mode ctx :=
  h.of_labels c.grows_labelled

theorem withLabel (h : c.Ready mode ctx) (hopen : c.Open l d) (info : LabelInfo) :
    (c.withLabel l info).Ready mode ctx :=
  h.of_labels (grows_withLabel hopen)

/-- A label that is placed keeps the order if its height is one that the code can have. -/
theorem marked (h : c.Ready mode ctx) {info : LabelInfo} (hlabel : c.label? l = some info)
    (hunplaced : info.position = none) (hdepth : info.depth ≤ c.body.size) :
    (c.marked l info).Ready mode ctx := by
  have hgrows := grows_marked hlabel hunplaced
  refine ⟨h.outside, h.nodup, h.scope, h.receivers, h.constants_le, h.interception, ?_, ?_, ?_, ?_,
    h.maxDepth_nonneg, h.maxDepth_le⟩
  · intro l' hl'
    obtain ⟨hname, haction, hargument, info', p, hlabel', hposition, hrest⟩ := h.loop l' hl'
    exact ⟨hname, haction, hargument, info', p,
      hgrows.placed l' info' hlabel' (by rw [hposition]; rfl), hposition, hrest⟩
  · simp only [marked_reachable, marked_depth, Bool.or_eq_true, decide_eq_true_eq]
    intro hlive
    split
    next hknown => exact hknown.2
    next hunknown =>
      rcases hlive with hlive | hlive
      · exact h.depth_nonneg hlive
      · exact h.depth_nonneg (by simpa [hlive] using hunknown)
  · have := h.le_depth
    simp only [marked_depth, marked_body]
    split <;> omega
  · have := h.depth_le
    simp only [marked_depth, marked_body]
    split <;> omega

/-- A constant keeps the order if there is an instruction for it. -/
theorem pooled (h : c.Ready mode ctx) (hv : v ≠ .noReceiver)
    (hroom : c.chunk.constants.size < c.body.size) : (c.pooled v).Ready mode ctx := by
  refine { h with receivers := fun hmem => ?_, constants_le := ?_ }
  · rcases Chunk.mem_addConstant hmem with hmem | rfl
    · exact h.receivers hmem
    · exact hv rfl
  · exact Nat.le_trans Chunk.size_addConstant_le hroom

/-- A name that is declared is in scope from then on. -/
theorem declared (h : c.Ready mode ctx) (hname : mode.Visible name) {scope : List Text}
    (hscope : ∀ other, other ∈ scope ↔ other ∈ ctx.scope ∨ other = name) :
    (c.declared name).Ready mode { ctx with scope } := by
  have hgrows := c.grows_declared name
  rw [declared_eq]
  exact { h with
    interception := mode.declares hname hgrows.locals (fun _ => mem_declared) h.interception
    nodup := nodup_declared h.nodup
    scope := fun other hother => by
      rw [mem_declared, hscope, h.scope other hother]
    loop := fun l hl => by
      obtain ⟨hname, haction, hargument, hlabel⟩ := h.loop l hl
      exact ⟨hname, mem_declared.mpr (.inl haction), mem_declared.mpr (.inl hargument), hlabel⟩ }

/-- In a loop the names that are assigned are known beforehand. -/
theorem after (h : c.Ready mode ctx) {n : Node} (hhead : mode.head.isSome = true)
    (hassigned : ∀ name ∈ n.assigned, name ∈ ctx.scope) : c.Ready mode (ctx.after n) :=
  { h with
    scope := fun name hname => by
      rw [h.scope name hname, Context.after, List.mem_append]
      exact ⟨.inl, fun hmem => hmem.elim id (hassigned name)⟩
    interception := mode.settled hhead h.interception }

end Ready

end Code

namespace Emit

section Labels

variable {marks : Marks} {u : Unit} {op : Opcode}

/-- A jump that pops records the height below the top, and touches no other label. -/
theorem ready_popJump (h : (popJump op l).Yields marks c u c') (hready : c.Ready mode ctx)
    (hopen : c.Open l d) (hneed : c.reachable = true → 1 ≤ c.depth)
    (hsize : c'.body.size ≤ 65535) :
    c'.Ready mode ctx ∧ c'.Open l (if c.reachable then c.depth - 1 else d) ∧
      (∀ l', l' ≠ l → c'.label? l' = c.label? l') ∧ c'.body = c.body.push ⟨op, l⟩ ∧
      c'.reachable = c.reachable ∧ c'.depth = c.depth - 1 := by
  obtain rfl := popJump_of_open h hopen
  have hopen' : (c.appended op l (-1)).Open l d := hopen
  have hsize' : c.body.size ≤ 65535 := Nat.le_trans (c.grows_appended op l (-1)).size_le hsize
  have hheight : height (c.depth - 1) = c.depth - 1 :=
    hready.height_add hsize' (by omega) (by omega)
  refine ⟨(hready.append op l (by omega) (by omega) hneed hsize).1.withLabel hopen' _, ?_,
    fun l' hne => Code.label?_withLabel_of_ne hopen' hne, rfl, rfl, hheight⟩
  have hopened : Code.Open _ l (if c.reachable then height (c.depth - 1) else d) :=
    Code.open_withLabel hopen'
  simpa only [hheight] using hopened

/-- A jump that may pop records the height with the top. -/
theorem ready_jumpOrPop (h : (jumpOrPop op l).Yields marks c u c') (hready : c.Ready mode ctx)
    (hopen : c.Open l d) (hneed : c.reachable = true → 1 ≤ c.depth)
    (hsize : c'.body.size ≤ 65535) :
    c'.Ready mode ctx ∧ c'.Open l (if c.reachable then c.depth else d) ∧
      (∀ l', l' ≠ l → c'.label? l' = c.label? l') ∧ c'.body = c.body.push ⟨op, l⟩ ∧
      c'.reachable = c.reachable ∧ c'.depth = c.depth - 1 := by
  obtain rfl := jumpOrPop_of_open h hopen
  have hsize' : c.body.size ≤ 65535 :=
    Nat.le_trans (Code.grows_appended (c.withLabel l _) op l (-1)).size_le hsize
  have hready1 := hready.withLabel hopen ⟨none, if c.reachable then c.depth else d⟩
  obtain ⟨hready2, -⟩ := hready1.append op l (by omega) (by omega)
    (fun hc => by simpa using hneed hc) hsize
  exact ⟨hready2, Code.open_withLabel hopen,
    fun l' hne => Code.label?_withLabel_of_ne hopen hne, rfl, rfl,
    hready.height_add hsize' (by omega) (by omega)⟩

/-- After a jump nothing can be reached. -/
theorem ready_jump (h : (jump l).Yields marks c u c') (hready : c.Ready mode ctx)
    (hopen : c.Open l d) (hsize : c'.body.size ≤ 65535) :
    c'.Ready mode ctx ∧ c'.Open l (if c.reachable then c.depth else d) ∧
      (∀ l', l' ≠ l → c'.label? l' = c.label? l') ∧ c'.body = c.body.push ⟨.jump, l⟩ ∧
      c'.reachable = false := by
  obtain rfl := jump_of_open h hopen
  exact ⟨((hready.withLabel hopen _).append .jump l (by omega) (by omega)
      (fun hc => by simpa using hready.depth_nonneg hc) hsize).1.ended,
    Code.open_withLabel hopen, fun l' hne => Code.label?_withLabel_of_ne hopen hne, rfl, rfl⟩

/-- A jump table leaves all its labels with the height below the top. -/
theorem ready_jumpTable {ls : List Label} (h : (jumpTable ls l).Yields marks c u c')
    (hready : c.Ready mode ctx) (hlive : c.reachable = true) (hneed : 1 ≤ c.depth)
    (hopen : ∀ l' ∈ ls ++ [l], ∃ e, c.Open l' e) (hsize : c'.body.size ≤ 65535) :
    c'.Ready mode ctx ∧ (∀ l' ∈ ls ++ [l], c'.Open l' (c.depth - 1)) ∧
      (∀ l', l' ∉ ls ++ [l] → c'.label? l' = c.label? l') ∧
      c'.body = c.body.push ⟨.jumpTable, c.tables.length⟩ ∧ c'.reachable = false ∧
      c'.tables = c.tables ++ [⟨ls, l⟩] := by
  obtain ⟨-, c1, c2, hall, hbranch, rfl⟩ := jumpTable_of_yields h
  have hsize1 : c.body.size + 1 ≤ 65535 := by
    have := (hall.grows.trans hbranch.grows).size_le
    simp only [Code.appended_body, Array.size_push] at this
    exact Nat.le_trans this hsize
  have hheight : height (c.depth - 1) = c.depth - 1 :=
    hready.height_add (by omega) (by omega) (by omega)
  have hready1 : (c.appended .jumpTable c.tables.length (-1)).Ready mode ctx :=
    hready.appended (by omega) _ _ (by omega) (by omega) fun _ => by omega
  have hl : l ≠ Label.none := by
    obtain ⟨e, he⟩ := hopen l (by simp)
    rintro rfl
    exact absurd (Code.lt_of_label? he).1 (by decide)
  rw [hheight] at hall
  obtain ⟨⟨_, hc1⟩, -⟩ := hall.of_open hlive fun l' hl' => hopen l' (by simp [hl'])
  have hdepth : c1.depth = c.depth - 1 := by
    rw [hc1]
    exact hheight
  rw [hdepth] at hbranch
  have hall' := hall.concat hl hbranch
  have hgrows := hall'.grows
  obtain ⟨⟨labels', rfl⟩, hopened, hkept⟩ := hall'.of_open hlive hopen
  refine ⟨?_, hopened, hkept, rfl, rfl, rfl⟩
  exact { (hready1.of_labels hgrows).ended with }

/-- Code goes on at a label if it runs into it or a jump to it is known. -/
theorem ready_mark (h : (mark l).Yields marks c u c') (hready : c.Ready mode ctx)
    (hopen : c.Open l d) (hd : d ≤ c.body.size) :
    c'.Ready mode ctx ∧ (∀ l', l' ≠ l → c'.label? l' = c.label? l') ∧ c'.body = c.body ∧
      c'.reachable = (c.reachable || decide (0 ≤ d)) ∧
      (c.reachable = true → c'.depth = c.depth) ∧ (0 ≤ d → c'.depth = d) ∧
      ∃ info, c'.label? l = some info ∧ info.position = some c.body.size := by
  obtain ⟨rfl, hdepth⟩ := mark_of_open h hopen
  refine ⟨hready.marked hopen rfl hd, fun l' hne => Code.label?_marked_of_ne hopen hne, rfl, rfl,
    fun hc => ?_, fun hknown => ?_, _, Code.label?_set_same rfl hopen, rfl⟩
  · simp [hc]
  · cases hc : c.reachable with
    | true => simp [hc, hdepth hc hknown]
    | false => simp [hc, hknown]

end Labels

/-- The emission, started in an orderly buffer with at least the needed height, leaves an orderly
buffer, and its code changes the height as told. -/
structure Keeps {α : Type} (mode : Mode) (x : Emit α) (ctx ctx' : Context) (need : Int)
    (count : Nat) (change : Int) : Prop where
  growing : Growing x
  step : ∀ ⦃marks : Marks⦄ ⦃c : Code⦄ ⦃a : α⦄ ⦃c' : Code⦄, x.Yields marks c a c' →
    c.Ready mode ctx → (mode.head = none → c.reachable = true) →
    (c.reachable = true → need ≤ c.depth) → c'.body.size ≤ 65535 →
    c'.Ready mode ctx' ∧ c.Flow [] count change c' ∧ (mode.head = none → c'.reachable = true)

section Keeps

variable {α β : Type} {ctx1 ctx2 : Context} {need need1 need2 : Int} {count1 count2 : Nat}
  {change1 change2 : Int}

theorem keeps_pure (a : α) : Keeps mode (pure a : Emit α) ctx ctx need 0 0 where
  growing := grows.pure a
  step marks c b c' h hready hlive _ _ := by
    obtain ⟨-, rfl⟩ := yields_pure.mp h
    exact ⟨hready, .refl c, hlive⟩

/-- One emission after another. The second may count on what the first has added, since code that
is too large is never assembled. -/
theorem keeps_bind {x : Emit α} {f : α → Emit β} (hx : Keeps mode x ctx ctx1 need1 count1 change1)
    (hgrowing : ∀ a, Growing (f a))
    (hf : count1 ≤ 65535 → ∀ a, Keeps mode (f a) ctx1 ctx2 need2 count2 change2)
    (hneed1 : need1 ≤ need) (hneed2 : need2 ≤ need + change1) :
    Keeps mode (x >>= f) ctx ctx2 need (count1 + count2) (change1 + change2) where
  growing := grows.bind hx.growing hgrowing
  step marks c b c' h hready hlive hneed hsize := by
    obtain ⟨a, c1, hfirst, hrest⟩ := yields_bind.mp h
    have hsize1 : c1.body.size ≤ 65535 := Nat.le_trans (hgrowing a hrest).size_le hsize
    obtain ⟨hready1, hflow1, hlive1⟩ := hx.step hfirst hready hlive
      (fun hc => Int.le_trans hneed1 (hneed hc)) hsize1
    have hcount : count1 ≤ 65535 := by
      have := hflow1.size_le
      omega
    have hneed2' : c1.reachable = true → need2 ≤ c1.depth := fun hc1 => by
      have hc := hflow1.reachable hc1
      have := hneed hc
      have := hflow1.depth hc hc1
      omega
    obtain ⟨hready2, hflow2, hlive2⟩ := (hf hcount a).step hrest hready1 hlive1 hneed2' hsize
    exact ⟨hready2, hflow1.trans hflow2, hlive2⟩

theorem keeps_append (op : Opcode) (operand : Int) (hlow : -131072 ≤ change) (hhigh : change ≤ 1) :
    Keeps mode (append op operand change) ctx ctx (-change) 1 change where
  growing := grows.append op operand change
  step marks c u c' h hready hlive hneed hsize := by
    obtain rfl := yields_append.mp h
    obtain ⟨hready1, hflow⟩ := hready.append op operand hlow hhigh hneed hsize
    exact ⟨hready1, hflow, hlive⟩

/-- An instruction with a constant. -/
theorem keeps_pooled_append (op : Opcode) (hv : v ≠ .noReceiver) (hlow : -131072 ≤ change)
    (hhigh : change ≤ 1) :
    Keeps mode (do append op (← addConstant v) change) ctx ctx (-change) 1 change where
  growing := grows.bind (grows.addConstant v) fun i => grows.append op i change
  step marks c u c' h hready hlive hneed hsize := by
    obtain rfl := pooled_of_yields h
    obtain ⟨hready1, hflow⟩ := hready.append op (c.constantIndex v) hlow hhigh hneed hsize
    refine ⟨hready1.pooled hv ?_, ⟨hflow.labels, hflow.size_le, hflow.dead, hflow.depth⟩, hlive⟩
    have := hready.constants_le
    simp only [Code.appended_chunk, Code.appended_body, Array.size_push]
    omega

theorem keeps_loadName (name : Text) : Keeps mode (loadName name) ctx ctx (-1) 1 1 where
  growing := grows.loadName name
  step marks c u c' h hready hlive hneed hsize := by
    rw [loadName, yields_get_bind] at h
    split at h
    next slot _ =>
      exact (keeps_append .loadLocal slot (by omega) (by omega)).step h hready hlive hneed hsize
    next =>
      have hkeeps : Keeps mode (do append .loadGlobal (← addConstant (.str name)) 1)
          ctx ctx (-1) 1 1 :=
        keeps_pooled_append .loadGlobal (by simp) (by omega) (by omega)
      exact hkeeps.step h hready hlive hneed hsize

/-- Giving a name a value declares it first. -/
theorem keeps_storeName
    (hdeclared : ∀ c : Code, c.Ready mode ctx → (c.declared name).Ready mode ctx1) :
    Keeps mode (storeName name) ctx ctx1 1 1 (-1) where
  growing := grows.storeName name
  step marks c u c' h hready hlive hneed hsize := by
    obtain rfl := yields_storeName.mp h
    have hready1 := hdeclared c hready
    have hc := c.declared_eq name
    have hneed1 : (c.declared name).reachable = true → 1 ≤ (c.declared name).depth := by
      rw [hc]
      exact hneed
    obtain ⟨hready2, hflow⟩ := hready1.append .storeLocal (c.declaredSlot name) (by omega)
      (by omega) hneed1 hsize
    refine ⟨hready2, ?_⟩
    rw [hc] at hflow ⊢
    exact ⟨⟨hflow.labels, hflow.size_le, hflow.dead, hflow.depth⟩, hlive⟩

end Keeps

end Emit

end ExprBackend
