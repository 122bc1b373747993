import ExprBackend.Proofs.Progress

/-! # Growing buffers

Emission only adds to a buffer: its instructions, constants, locals and tables
stay where they are, and a label that is placed stays in its place. So what is
known of a piece of code when it is emitted still holds in the finished buffer.
-/

namespace ExprBackend

open List

variable {c c' : Code} {d : Int} {i : Nat} {l : Label} {name : Text} {op : Opcode} {v w : Value}
  {α : Type} {x : Emit α}

theorem getElem?_of_prefix {l l' : List α} (h : l <+: l') {a : α} (ha : l[i]? = some a) :
    l'[i]? = some a := by
  obtain ⟨rest, rfl⟩ := h
  rw [List.getElem?_append_left (List.getElem?_eq_some_iff.mp ha).1]
  exact ha

theorem toBits_injective {a b : Float} (h : a.toBits = b.toBits) : a = b := by
  rcases a with ⟨⟨_, _⟩⟩
  rcases b with ⟨⟨_, _⟩⟩
  cases h
  rfl

/-- Apart from the placeholder for a receiver, only equal values are identical. -/
theorem Value.eq_of_identical (hv : v ≠ .noReceiver) (hw : w ≠ .noReceiver)
    (h : v.identical w = true) : v = w := by
  cases v <;> cases w <;> simp_all [identical]
  exact toBits_injective h

theorem Value.identical_self (v : Value) : v.identical v = true := by
  cases v <;> simp [identical]

namespace Chunk

variable {c : Chunk}

/-- A value is new, and then joins the pool at its end, or the pool has its place already. -/
theorem addConstant_cases (c : Chunk) (v : Value) :
    (c.addConstant v).2 = c ∧ (∃ w, c.constants[c.place v]? = some w ∧ w.identical v = true) ∨
      c.place v = c.constants.size ∧
        (c.addConstant v).2 = { c with constants := c.constants.push v } ∧
        ∀ w ∈ c.constants, w.identical v = false := by
  rw [addConstant, place]
  cases hplace : c.constants.findIdx? (·.identical v) with
  | some i =>
    obtain ⟨hlt, hidentical, -⟩ := Array.findIdx?_eq_some_iff_getElem.mp hplace
    exact .inl ⟨rfl, c.constants[i], Array.getElem?_eq_getElem hlt, hidentical⟩
  | none =>
    exact .inr ⟨rfl, rfl, fun w hw => by simpa using Array.findIdx?_eq_none_iff.mp hplace w hw⟩

theorem size_addConstant_le : (c.addConstant v).2.constants.size ≤ c.constants.size + 1 := by
  rcases c.addConstant_cases v with ⟨heq, -⟩ | ⟨-, heq, -⟩ <;> simp [heq]

theorem mem_addConstant (h : w ∈ (c.addConstant v).2.constants) : w ∈ c.constants ∨ w = v := by
  rcases c.addConstant_cases v with ⟨heq, -⟩ | ⟨-, heq, -⟩
  · exact .inl (heq ▸ h)
  · simpa [heq] using h

/-- A constant is found under its index in the pool. -/
theorem addConstant_getElem? (h : ∀ w ∈ c.constants, w.identical v = true → w = v) :
    (c.addConstant v).2.constants[c.place v]? = some v := by
  rcases c.addConstant_cases v with ⟨heq, w, hw, hidentical⟩ | ⟨hplace, heq, -⟩
  · rw [heq, hw, h w (Array.mem_of_getElem? hw) hidentical]
  · simp [heq, hplace]

theorem addConstant_lt : c.place v < (c.addConstant v).2.constants.size := by
  rcases c.addConstant_cases v with ⟨heq, w, hw, -⟩ | ⟨hplace, heq, -⟩
  · rw [heq]
    exact (Array.getElem?_eq_some_iff.mp hw).1
  · simp [heq, hplace]

theorem addConstant_grows (c : Chunk) (v : Value) :
    c.constants.toList <+: (c.addConstant v).2.constants.toList := by
  rcases c.addConstant_cases v with ⟨heq, -⟩ | ⟨-, heq, -⟩ <;> simp [heq]

end Chunk

namespace Code

variable {slot : Nat} {l' : Label} {info info' : LabelInfo} {d' : Int} {ls : List Label}

theorem getElem?_of_slot? (h : c.slot? name = some slot) : c.locals[slot]? = some name := by
  obtain ⟨hlt, heq, -⟩ := findIdx?_eq_some_iff_getElem.mp h
  rw [getElem?_eq_getElem hlt, eq_of_beq heq]

theorem slot?_of_getElem? (hnodup : c.locals.Nodup) (h : c.locals[slot]? = some name) :
    c.slot? name = some slot := by
  obtain ⟨hlt, hname⟩ := List.getElem?_eq_some_iff.mp h
  refine List.findIdx?_eq_some_iff_getElem.mpr ⟨hlt, by simp [hname], fun j hj => ?_⟩
  rw [beq_iff_eq]
  intro heq
  have hsame : c.locals[slot]? = c.locals[j]? := by
    rw [h, getElem?_eq_getElem (Nat.lt_trans hj hlt), heq]
  exact absurd ((getElem?_inj hlt hnodup).mp hsame) (by omega)

theorem slot?_eq_none_iff : c.slot? name = none ↔ name ∉ c.locals := by
  simp only [slot?, findIdx?_eq_none_iff, beq_eq_false_iff_ne]
  exact ⟨fun h hmem => h name hmem rfl, fun h other hmem heq => h (heq ▸ hmem)⟩

theorem mem_declared {other : Text} :
    other ∈ (c.declared name).locals ↔ other ∈ c.locals ∨ other = name := by
  rw [declared, declare]
  split
  next slot hslot =>
    have hmem := mem_of_getElem? (getElem?_of_slot? hslot)
    exact ⟨.inl, fun h => h.elim id fun h => h ▸ hmem⟩
  next => simp

theorem nodup_declared (h : c.locals.Nodup) : (c.declared name).locals.Nodup := by
  rw [declared, declare]
  split
  next => exact h
  next hslot =>
    rw [nodup_append]
    exact ⟨h, by simp, fun a ha b hb heq =>
      slot?_eq_none_iff.mp hslot (by simp_all)⟩

theorem declared_of_mem (h : name ∈ c.locals) : c.declared name = c := by
  rw [declared, declare]
  split
  next => rfl
  next hslot => exact absurd h (slot?_eq_none_iff.mp hslot)

theorem declared_of_not_mem (h : name ∉ c.locals) :
    c.declared name = { c with locals := c.locals ++ [name] } ∧
      c.declaredSlot name = c.locals.length := by
  rw [declared, declaredSlot, declare, slot?_eq_none_iff.mpr h]
  exact ⟨rfl, rfl⟩

theorem declared_getElem? (c : Code) (name : Text) :
    (c.declared name).locals[c.declaredSlot name]? = some name := by
  rw [declared, declaredSlot, declare]
  split
  next slot hslot => exact getElem?_of_slot? hslot
  next => simp

/-- A buffer is an earlier state of another. -/
structure Grows (c c' : Code) : Prop where
  body : c.body.toList <+: c'.body.toList
  constants : c.chunk.constants.toList <+: c'.chunk.constants.toList
  locals : c.locals <+: c'.locals
  tables : c.tables <+: c'.tables
  placed : ∀ l info, c.label? l = some info → info.position.isSome = true →
    c'.label? l = some info
  paramCount : c'.paramCount = c.paramCount

namespace Grows

variable {c'' : Code}

theorem refl (c : Code) : c.Grows c :=
  ⟨prefix_rfl, prefix_rfl, prefix_rfl, prefix_rfl, fun _ _ h _ => h, rfl⟩

theorem trans (h : c.Grows c') (h' : c'.Grows c'') : c.Grows c'' where
  body := h.body.trans h'.body
  constants := h.constants.trans h'.constants
  locals := h.locals.trans h'.locals
  tables := h.tables.trans h'.tables
  placed l info hlabel hplaced := h'.placed l info (h.placed l info hlabel hplaced) hplaced
  paramCount := h'.paramCount.trans h.paramCount

/-- A buffer that differs only in labels grows if none of those that are placed is changed. -/
theorem of_labels {labels : Array LabelInfo}
    (h : ∀ l info, c.label? l = some info → info.position.isSome = true →
      ({ c with labels } : Code).label? l = some info) : c.Grows { c with labels } :=
  ⟨prefix_rfl, prefix_rfl, prefix_rfl, prefix_rfl, h, rfl⟩

theorem size_le (h : c.Grows c') : c.body.size ≤ c'.body.size := by
  simpa using h.body.length_le

theorem body_getElem? (h : c.Grows c') {k : Nat} {ins : Instr} (hins : c.body[k]? = some ins) :
    c'.body[k]? = some ins := by
  rw [← Array.getElem?_toList] at hins ⊢
  exact getElem?_of_prefix h.body hins

theorem constants_getElem? (h : c.Grows c') (hv : c.chunk.constants[i]? = some v) :
    c'.chunk.constants[i]? = some v := by
  rw [← Array.getElem?_toList] at hv ⊢
  exact getElem?_of_prefix h.constants hv

theorem tables_getElem? (h : c.Grows c') {t : TableSpec} (ht : c.tables[i]? = some t) :
    c'.tables[i]? = some t :=
  getElem?_of_prefix h.tables ht

theorem locals_getElem? (h : c.Grows c') (hname : c.locals[i]? = some name) :
    c'.locals[i]? = some name :=
  getElem?_of_prefix h.locals hname

end Grows

theorem grows_appended (c : Code) (op : Opcode) (operand change : Int) :
    c.Grows (c.appended op operand change) where
  body := by simp
  constants := prefix_rfl
  locals := prefix_rfl
  tables := prefix_rfl
  placed _ _ h _ := h
  paramCount := rfl

theorem grows_pooled (c : Code) (v : Value) : c.Grows (c.pooled v) where
  body := prefix_rfl
  constants := c.chunk.addConstant_grows v
  locals := prefix_rfl
  tables := prefix_rfl
  placed _ _ h _ := h
  paramCount := rfl

theorem grows_declared (c : Code) (name : Text) : c.Grows (c.declared name) := by
  rw [declared, declare]
  split
  next => exact .refl c
  next =>
    exact ⟨prefix_rfl, prefix_rfl, by simp, prefix_rfl, fun _ _ h _ => h, rfl⟩

theorem grows_labelled (c : Code) : c.Grows c.labelled :=
  .of_labels fun _ _ hlabel _ => label?_labelled hlabel

theorem grows_ended (c : Code) : c.Grows c.ended :=
  ⟨prefix_rfl, prefix_rfl, prefix_rfl, prefix_rfl, fun _ _ h _ => h, rfl⟩

theorem grows_tabled (c : Code) (t : TableSpec) : c.Grows (c.tabled t) :=
  ⟨prefix_rfl, prefix_rfl, prefix_rfl, prefix_append .., fun _ _ h _ => h, rfl⟩

theorem grows_noted (c : Code) (emitting : List LazySignature) (events : Array Event)
    (observations : Array Observation) : c.Grows (c.noted emitting events observations) :=
  ⟨prefix_rfl, prefix_rfl, prefix_rfl, prefix_rfl, fun _ _ h _ => h, rfl⟩

/-- What is known of a label that is not placed can change. -/
theorem label?_set_of_placed {old : LabelInfo}
    (hlabels : c'.labels = c.labels.setIfInBounds l.toNat info) (hold : c.label? l = some old)
    (hunplaced : old.position = none) (hlabel : c.label? l' = some info')
    (hplaced : info'.position.isSome = true) : c'.label? l' = some info' := by
  have hne : l' ≠ l := by
    rintro rfl
    rw [hold] at hlabel
    cases hlabel
    rw [hunplaced] at hplaced
    cases hplaced
  rw [label?_set_other hlabels hne (lt_of_label? hold).1]
  exact hlabel

theorem Branches.grows (h : c.Branches l d c') : c.Grows c' := by
  cases h with
  | dead => exact .refl c
  | backward => exact .refl c
  | forward _ hlabel hunplaced _ =>
    exact .of_labels fun _ _ => label?_set_of_placed rfl hlabel hunplaced

theorem BranchesAll.grows (h : BranchesAll d c ls c') : c.Grows c' := by
  induction h with
  | nil => exact .refl _
  | skip _ ih => exact ih
  | cons _ hbranch _ ih => exact hbranch.grows.trans ih

theorem grows_marked (hlabel : c.label? l = some info) (hunplaced : info.position = none) :
    c.Grows (c.marked l info) :=
  ⟨prefix_rfl, prefix_rfl, prefix_rfl, prefix_rfl,
    fun _ _ => label?_set_of_placed rfl hlabel hunplaced, rfl⟩

/-- A label that is not placed, with the height known of it. -/
def Open (c : Code) (l : Label) (d : Int) : Prop := c.label? l = some ⟨none, d⟩

theorem withLabel_self (h : c.label? l = some info) : c.withLabel l info = c := by
  obtain ⟨hl, hlt⟩ := lt_of_label? h
  have hinfo : c.labels[l.toNat] = info := by
    rw [label?, if_pos hl, Array.getElem?_eq_getElem hlt] at h
    exact Option.some.inj h
  rw [withLabel, Array.setIfInBounds_def, dif_pos hlt, ← hinfo, Array.set_getElem_self]

/-- A jump to a label that is not placed records its height there, if it can be reached. -/
theorem Branches.eq_withLabel (h : c.Branches l d c') (hopen : c.Open l d') :
    c' = c.withLabel l ⟨none, if c.reachable then d else d'⟩ := by
  cases h with
  | dead hdead => rw [hdead, if_neg Bool.false_ne_true, withLabel_self hopen]
  | backward _ hlabel hplaced =>
    rw [hopen] at hlabel
    cases hlabel
    cases hplaced
  | forward hlive hlabel =>
    rw [hopen] at hlabel
    cases hlabel
    rw [if_pos hlive]

theorem grows_withLabel (h : c.Open l d) : c.Grows (c.withLabel l info) :=
  .of_labels fun _ _ => label?_set_of_placed rfl h rfl

theorem open_withLabel (h : c.Open l d) : (c.withLabel l ⟨none, d'⟩).Open l d' :=
  label?_set_same rfl h

theorem label?_withLabel_of_ne (h : c.Open l d) (hne : l' ≠ l) :
    (c.withLabel l info).label? l' = c.label? l' :=
  label?_set_other rfl hne (lt_of_label? h).1

theorem BranchesAll.concat {c1 : Code} (h : BranchesAll d c ls c1) (hl : l ≠ Label.none)
    (hbranch : c1.Branches l d c') : BranchesAll d c (ls ++ [l]) c' := by
  induction h with
  | nil => exact .cons hl hbranch .nil
  | skip _ ih => exact .skip (ih hbranch)
  | cons hl' hbranch' _ ih => exact .cons hl' hbranch' (ih hbranch)

/-- Jumps to open labels, recorded where code can be reached, give the labels their height. -/
theorem BranchesAll.of_open (h : BranchesAll d c ls c') (hlive : c.reachable = true)
    (hopen : ∀ l ∈ ls, ∃ e, c.Open l e) :
    (∃ labels, c' = { c with labels }) ∧ (∀ l ∈ ls, c'.Open l d) ∧
      ∀ l, l ∉ ls → c'.label? l = c.label? l := by
  induction h with
  | nil => exact ⟨⟨_, rfl⟩, by simp, fun _ _ => rfl⟩
  | skip _ ih =>
    obtain ⟨e, hnone⟩ := hopen Label.none (by simp)
    exact absurd (lt_of_label? hnone).1 (by decide)
  | @cons c c1 c' l rest hl hbranch _ ih =>
    rw [forall_mem_cons] at hopen
    obtain ⟨⟨e, hopen⟩, hrest⟩ := hopen
    obtain rfl := hbranch.eq_withLabel hopen
    rw [if_pos hlive] at ih
    have hother : ∀ l', l' ≠ l → (c.withLabel l ⟨none, d⟩).label? l' = c.label? l' :=
      fun l' hne => label?_set_other rfl hne (lt_of_label? hopen).1
    have hsame : (c.withLabel l ⟨none, d⟩).Open l d := open_withLabel hopen
    obtain ⟨⟨labels, rfl⟩, hopened, hkept⟩ := ih hlive fun l' hl' => by
      by_cases heq : l' = l
      · exact ⟨d, heq ▸ hsame⟩
      · obtain ⟨e', he'⟩ := hrest l' hl'
        exact ⟨e', (hother l' heq).trans he'⟩
    refine ⟨⟨labels, rfl⟩, forall_mem_cons.mpr ⟨?_, hopened⟩, fun l' hl' => ?_⟩
    · by_cases hmem : l ∈ rest
      · exact hopened l hmem
      · exact (hkept l hmem).trans hsame
    · rw [mem_cons, not_or] at hl'
      rw [hkept l' hl'.2, hother l' hl'.1]

theorem label?_marked_of_ne (h : c.label? l = some info') (hne : l' ≠ l) :
    (c.marked l info).label? l' = c.label? l' :=
  label?_set_other rfl hne (lt_of_label? h).1

end Code

namespace Emit

/-- Whatever comes of the emission, the buffer has only grown. -/
abbrev Growing {α : Type} (x : Emit α) : Prop := Always (fun _ _ => Code.Grows) [] x

section Labels

variable {marks : Marks} {u : Unit}

theorem jump_of_open (h : (jump l).Yields marks c u c') (hopen : c.Open l d) :
    c' = ((c.withLabel l ⟨none, if c.reachable then c.depth else d⟩).appended .jump l 0).ended := by
  obtain ⟨c1, hbranch, rfl⟩ := jump_of_yields h
  rw [hbranch.eq_withLabel hopen]

theorem popJump_of_open (h : (popJump op l).Yields marks c u c') (hopen : c.Open l d) :
    c' = (c.appended op l (-1)).withLabel l
      ⟨none, if c.reachable then height (c.depth - 1) else d⟩ :=
  (popJump_of_yields h).eq_withLabel hopen

theorem jumpOrPop_of_open (h : (jumpOrPop op l).Yields marks c u c') (hopen : c.Open l d) :
    c' = (c.withLabel l ⟨none, if c.reachable then c.depth else d⟩).appended op l (-1) := by
  obtain ⟨c1, hbranch, rfl⟩ := jumpOrPop_of_yields h
  rw [hbranch.eq_withLabel hopen]

theorem mark_of_open (h : (mark l).Yields marks c u c') (hopen : c.Open l d) :
    c' = c.marked l ⟨none, d⟩ ∧ (c.reachable = true → 0 ≤ d → d = c.depth) := by
  obtain ⟨-, info, hlabel, -, hdepth, rfl⟩ := marked_of_yields h
  rw [hopen] at hlabel
  cases hlabel
  exact ⟨rfl, hdepth⟩

end Labels

theorem progress_grows : Code.Progress fun _ _ => Code.Grows where
  refl := .refl
  trans := .trans
  appended c _ _ _ _ := c.grows_appended ..
  pooled := Code.grows_pooled
  labelled h := (Code.grows_labelled _).trans h
  ended := Code.grows_ended
  branches _ h := h.grows
  marked _ _ hlabel hunplaced _ := Code.grows_marked hlabel hunplaced
  misplaced _ hlabel hunplaced :=
    .of_labels fun _ _ => Code.label?_set_of_placed rfl hlabel hunplaced

theorem grows_called (c : Code) (namedLabels : List (Text × Label)) :
    c.Grows { c with namedLabels } :=
  ⟨prefix_rfl, prefix_rfl, prefix_rfl, prefix_rfl, fun _ _ h _ => h, rfl⟩

/-- Emission only adds to the buffer. -/
theorem grows : Code.Expansion fun _ _ => Code.Grows where
  toProgress := progress_grows
  coded := Code.grows_appended
  declared := Code.grows_declared
  noted _ _ _ _ _ := ⟨prefix_rfl, prefix_rfl, prefix_rfl, prefix_rfl, fun _ _ h _ => h, rfl⟩
  within h := ⟨h.body, h.constants, h.locals, h.tables, h.placed, h.paramCount⟩
  headed _ _ _ _ := ⟨prefix_rfl, prefix_rfl, prefix_rfl, prefix_rfl, fun _ _ h _ => h, rfl⟩
  loop := @fun _ => progress_grows.loop grows_called

theorem growing_namedLabel (name : Text) : Growing (namedLabel name) :=
  grows.namedLabel grows_called name

theorem growing_jumpTable (ls : List Label) (l : Label) : Growing (jumpTable ls l) :=
  grows.jumpTable Code.grows_tabled ls l

end Emit

namespace Node

open Emit

/-- Emitting an expression only adds to the buffer. -/
theorem grown (n : Node) : Growing (expression n n.emit) := grows.related n []

theorem growing_emitLinks (cleanup : Label) (links : List (CompareOp × Node)) :
    Growing (emitLinks cleanup links) :=
  related_emitLinks grows.congruence (mem_singleton_self cleanup) fun m _ => grows.related m

theorem growing_emitOperands (junction : Junction) (done : Label) (operands : List Node) :
    Growing (emitOperands junction done operands) :=
  related_emitOperands grows.congruence junction (mem_singleton_self done) fun m _ =>
    grows.related m

theorem growing_emitStar (star : Option Node) : Growing (emitStar star) :=
  @related_emitStar _ expression expression [] grows.congruence _ fun m _ => grows.related m

theorem growing_emitKeywords (keywords : List (Text × Node)) : Growing (emitKeywords keywords) :=
  @related_emitKeywords _ expression expression [] grows.congruence _ fun m _ => grows.related m

theorem growing_emitDoubleStar (doubleStar : Option Node) : Growing (emitDoubleStar doubleStar) :=
  @related_emitDoubleStar _ expression expression [] grows.congruence _ fun m _ => grows.related m

end Node

end ExprBackend
