import ExprBackend.Proofs.Placement

/-! # Reading code back

What assembly writes can be read back: from the first byte on, instruction behind
instruction, as the machine reads them. The instructions are those of the buffer,
first those of the prologue and then those of the body, with their operands. In
place of a label stands the offset of the instruction that the label was placed at.
-/

namespace ExprBackend

open List

variable {i : Nat} {is : List Instr} {resolve : Label → Except Failure Int}

/-- An instruction as it is read from code, with the offset at which it starts. -/
structure Decoded where
  offset : Nat
  op : Opcode
  operand : Nat
  deriving DecidableEq

/-- The instructions from an offset to the end of the code, if there is nothing else. -/
def decodeFrom (code : Array UInt8) (offset : Nat) : Option (List Decoded) :=
  if offset < code.size then
    match (Machine.byteAt code offset).bind Opcode.ofCode? with
    | none => none
    | some op =>
      match Machine.operandAt code (offset + 1) op.width with
      | none => none
      | some operand =>
        (decodeFrom code (offset + 1 + op.width)).map (⟨offset, op, operand⟩ :: ·)
  else some []
termination_by code.size - offset

/-- Where the instruction with an index starts; behind the last one this is the end of the code. -/
def startOf (decoded : List Decoded) (size index : Nat) : Nat :=
  (decoded[index]?.map Decoded.offset).getD size

/-- Instructions one behind the other from an offset on, as they should be read back. -/
def layout (resolve : Label → Except Failure Int) : Nat → List Instr → List Decoded
  | _, [] => []
  | offset, i :: rest =>
    ⟨offset, i.op, decoded i.op.width ((i.resolved resolve).toOption.getD 0)⟩ ::
      layout resolve (offset + i.size) rest

theorem layout_getElem? (resolve : Label → Except Failure Int) (offset : Nat) (is : List Instr)
    (i : Nat) :
    (layout resolve offset is)[i]? = is[i]?.map fun ins =>
      ⟨offset + codeOffset is i, ins.op,
        decoded ins.op.width ((ins.resolved resolve).toOption.getD 0)⟩ := by
  induction is generalizing offset i with
  | nil => rfl
  | cons ins rest ih =>
    cases i with
    | zero => simp [layout, codeOffset]
    | succ i =>
      have hoffset : codeOffset (ins :: rest) (i + 1) = ins.size + codeOffset rest i := by
        simp [codeOffset]
      simp only [layout, getElem?_cons_succ, ih, hoffset, Nat.add_assoc]

theorem forall₂_layout (resolve : Label → Except Failure Int) {R : Instr → Decoded → Prop}
    (h : ∀ i ∈ is, ∀ offset,
      R i ⟨offset, i.op, decoded i.op.width ((i.resolved resolve).toOption.getD 0)⟩)
        (offset : Nat) :
    Forall₂ R is (layout resolve offset is) := by
  induction is generalizing offset with
  | nil => exact .nil
  | cons i rest ih =>
    rw [forall_mem_cons] at h
    exact .cons (h.1 offset) (ih h.2 _)

theorem codeOffset_length (is : List Instr) :
    codeOffset is is.length = (is.map Instr.size).sum := by
  rw [codeOffset, take_length]

section Reading

variable {code : Array UInt8}

theorem size_of_encoded (hcode : code.toList = is.flatMap (·.encoded resolve)) :
    code.size = (is.map Instr.size).sum := by
  rw [← Array.length_toList, hcode, length_flatMap]
  simp only [Instr.length_encoded]

/-- At the offset of an instruction the machine reads its operation and its operand. -/
theorem read_of_encoded (hcode : code.toList = is.flatMap (·.encoded resolve)) {ins : Instr}
    (hins : is[i]? = some ins) :
    (Machine.byteAt code (codeOffset is i)).bind Opcode.ofCode? = some ins.op ∧
      Machine.operandAt code (codeOffset is i + 1) ins.op.width =
        some (decoded ins.op.width ((ins.resolved resolve).toOption.getD 0)) := by
  obtain ⟨rest, hdrop⟩ := drop_flatMap_encoded resolve hins
  rw [← hcode, Instr.encoded, cons_append] at hdrop
  refine ⟨?_, operandAt_of_drop hdrop⟩
  rw [byteAt_natCast, ← Nat.add_zero (codeOffset _ _), ← getElem?_drop, hdrop]
  exact ins.op.ofCode?_code

/-- What has been encoded is read back, from any instruction on. -/
theorem decodeFrom_encoded (hcode : code.toList = is.flatMap (·.encoded resolve))
    (hi : i ≤ is.length) :
    decodeFrom code (codeOffset is i) = some (layout resolve (codeOffset is i) (is.drop i)) := by
  -- Reading goes from the front to the end, so the induction is on what is left to read.
  induction hleft : is.length - i generalizing i with
  | zero =>
    obtain rfl : i = is.length := by omega
    rw [decodeFrom, size_of_encoded hcode, codeOffset_length, if_neg (Nat.lt_irrefl _), drop_length]
    rfl
  | succ left ih =>
    have hlt : i < is.length := by omega
    have hins : is[i]? = some is[i] := getElem?_eq_getElem hlt
    have hnext : codeOffset is (i + 1) = codeOffset is i + 1 + is[i].op.width := by
      rw [codeOffset_succ hins, Instr.size, Nat.add_assoc]
    have hinside : codeOffset is i < code.size := by
      have hle := codeOffset_le is (i + 1)
      rw [size_of_encoded hcode]
      omega
    obtain ⟨hop, hoperand⟩ := read_of_encoded hcode hins
    rw [decodeFrom, if_pos hinside, hop]
    simp only [hoperand]
    rw [← hnext, ih hlt (by omega), drop_eq_getElem_cons hlt, layout, Option.map_some,
      codeOffset_succ hins]

end Reading

/-! ## Assembled code -/

theorem forall₂_resolveTargets {labels : List Label} {targets : List Int}
    (h : resolveTargets resolve labels = .ok targets) :
    Forall₂ (fun l target => (if l = Label.none then .ok (-1) else resolve l) = .ok target)
      labels targets := by
  induction labels generalizing targets with
  | nil =>
    cases h
    exact .nil
  | cons l rest ih =>
    rw [resolveTargets_cons] at h
    cases htarget : (if l = Label.none then .ok (-1) else resolve l : Except Failure Int) with
    | error failure => simp [htarget, bind, Except.bind] at h
    | ok target =>
      cases hrest : resolveTargets resolve rest with
      | error failure => simp [htarget, hrest, bind, Except.bind] at h
      | ok others =>
        simp only [htarget, hrest, bind, Except.bind, Except.ok.injEq] at h
        subst h
        exact .cons htarget (ih hrest)

theorem forall₂_resolveTables {specs : List TableSpec} {tables : List JumpTable}
    (h : resolveTables resolve specs = (tables, .ok ())) :
    Forall₂ (fun t table => t.resolve resolve = .ok table) specs tables := by
  induction specs generalizing tables with
  | nil =>
    cases h
    exact .nil
  | cons t rest ih =>
    cases ht : t.resolve resolve with
    | error failure => simp [resolveTables, ht] at h
    | ok table =>
      simp only [resolveTables, ht, Prod.mk.injEq] at h
      obtain ⟨rfl, hrest⟩ := h
      exact .cons ht (ih (Prod.ext rfl hrest))

/-- The operand of an instruction fits into the bytes that it has in code. Labels always fit. -/
def Instr.InRange (i : Instr) : Prop :=
  i.op.isJump = false → 0 ≤ i.operand ∧ i.operand.toNat < 256 ^ i.op.width

instance (i : Instr) : Decidable i.InRange :=
  inferInstanceAs (Decidable (_ → _))

section

variable (c : Code) (code : List Decoded) (size : Nat)

/-- An offset is that of a label: the label is placed in the body, and the instruction at its place
starts there. -/
def Code.Lands (l : Label) (target : Int) : Prop :=
  ∃ info p, c.label? l = some info ∧ info.position = some p ∧ p ≤ c.body.size ∧
    target = startOf code size (c.prologue.size + p)

/-- An instruction is read back: with its operand, or with the offset of the label it jumps to. -/
def Code.ReadsBack (i : Instr) (d : Decoded) : Prop :=
  d.op = i.op ∧ if i.op.isJump then c.Lands code size i.operand d.operand else d.operand = i.operand

/-- A jump table has the offsets of its labels; an entry is negative exactly if it has no label. -/
def Code.Tabulates (t : TableSpec) (table : JumpTable) : Prop :=
  c.Lands code size t.default table.default ∧
    Forall₂ (fun l target => (target = -1 ↔ l = Label.none) ∧
      (l ≠ Label.none → c.Lands code size l target)) t.targets table.targets

end

theorem decoded_of_inRange {op : Opcode} {n : Nat} (h : n < 256 ^ op.width) :
    decoded op.width n = n := by
  cases op <;> simp [Opcode.width, decoded] at h ⊢ <;> omega

namespace Assembled

variable {c : Code} {chunk : Chunk}

theorem code_toList (h : Assembled c chunk) :
    chunk.code.toList = c.instrs.flatMap (·.encoded (c.labelOffset c.offsets)) := by
  rw [(encodeAll_ok h.code).2]
  rfl

def listing (c : Code) : List Decoded := layout (c.labelOffset c.offsets) 0 c.instrs

theorem decodeFrom_zero (h : Assembled c chunk) : decodeFrom chunk.code 0 = some (listing c) :=
  decodeFrom_encoded h.code_toList (Nat.zero_le _)

theorem listing_getElem? (c : Code) (i : Nat) :
    (listing c)[i]? = c.instrs[i]?.map fun ins => ⟨codeOffset c.instrs i, ins.op,
      decoded ins.op.width ((ins.resolved (c.labelOffset c.offsets)).toOption.getD 0)⟩ := by
  rw [listing, layout_getElem?]
  simp only [Nat.zero_add]

theorem startOf_listing (h : Assembled c chunk) (hi : i ≤ c.instrs.length) :
    startOf (listing c) chunk.code.size i = codeOffset c.instrs i := by
  rw [startOf, listing_getElem?]
  by_cases hlt : i < c.instrs.length
  · rw [getElem?_eq_getElem hlt]
    rfl
  · obtain rfl : i = c.instrs.length := by omega
    rw [getElem?_eq_none (Nat.le_refl _), size_of_encoded h.code_toList, codeOffset_length]
    rfl

/-- The offset that assembly finds for a label is where the instruction at its place starts. -/
theorem lands (h : Assembled c chunk) (hplaced : c.Placed) {l : Label} {target : Int}
    (hl : c.labelOffset c.offsets l = .ok target) :
    c.Lands (listing c) chunk.code.size l target := by
  rw [Code.labelOffset] at hl
  cases hlabel : c.label? l with
  | none => simp [hlabel] at hl
  | some info =>
    cases hposition : info.position with
    | none => simp [hlabel, hposition] at hl
    | some p =>
      have hp := hplaced info (Code.mem_of_label? hlabel) p hposition
      refine ⟨info, p, hlabel, hposition, hp, ?_⟩
      have hlength : c.prologue.size + p ≤ c.instrs.length := by
        simpa [Code.instrs] using hp
      simp only [hlabel, hposition, c.offsets_getElem? hp, Option.getD_some, Except.ok.injEq] at hl
      rw [h.startOf_listing hlength, ← hl, Code.place]

/-- Every instruction is read back. -/
theorem readsBack (h : Assembled c chunk) (hplaced : c.Placed)
    (hrange : ∀ i ∈ c.instrs, i.InRange) :
    Forall₂ (c.ReadsBack (listing c) chunk.code.size) c.instrs (listing c) := by
  refine forall₂_layout _ (fun i hi offset => ⟨rfl, ?_⟩) 0
  obtain ⟨operand, hoperand⟩ := (encodeAll_ok h.code).1 i hi
  rw [hoperand]
  change if i.op.isJump then c.Lands (listing c) chunk.code.size i.operand
      (decoded i.op.width operand) else (decoded i.op.width operand : Int) = i.operand
  cases hjump : i.op.isJump with
  | true =>
    rw [Instr.resolved, if_pos hjump] at hoperand
    obtain ⟨info, p, hlabel, hposition, hp, rfl⟩ := h.lands hplaced hoperand
    have hstart : startOf (listing c) chunk.code.size (c.prologue.size + p) = c.place p := by
      apply h.startOf_listing
      simpa [Code.instrs] using hp
    have hwidth : i.op.width = 2 := by
      revert hjump
      cases i.op <;> decide
    refine ⟨info, p, hlabel, hposition, hp, ?_⟩
    rw [hstart, decoded_word hwidth (h.place_le p)]
  | false =>
    rw [Instr.resolved, if_neg (by simp [hjump])] at hoperand
    cases hoperand
    obtain ⟨hnonneg, hlt⟩ := hrange i hi hjump
    rw [if_neg Bool.false_ne_true]
    conv_lhs => rw [← Int.toNat_of_nonneg hnonneg, decoded_of_inRange hlt]
    exact Int.toNat_of_nonneg hnonneg

/-- Every jump table has the offsets of its labels. -/
theorem tabulates (h : Assembled c chunk) (hplaced : c.Placed) :
    Forall₂ (c.Tabulates (listing c) chunk.code.size) c.tables chunk.tables := by
  refine (forall₂_resolveTables h.tables).imp fun t table ht => ?_
  unfold TableSpec.resolve at ht
  cases htargets : resolveTargets (c.labelOffset c.offsets) t.targets with
  | error failure =>
    rw [htargets] at ht
    cases ht
  | ok targets =>
    rw [htargets] at ht
    cases hdefault : c.labelOffset c.offsets t.default with
    | error failure =>
      simp only [bind, Except.bind, hdefault] at ht
      cases ht
    | ok target =>
      simp only [bind, Except.bind, hdefault] at ht
      cases ht
      refine ⟨h.lands hplaced hdefault, (forall₂_resolveTargets htargets).imp fun l target hl => ?_⟩
      by_cases hnone : l = Label.none
      · rw [if_pos hnone] at hl
        cases hl
        exact ⟨⟨fun _ => hnone, fun _ => rfl⟩, fun hl => absurd hnone hl⟩
      · rw [if_neg hnone] at hl
        have hlands := h.lands hplaced hl
        have hnonneg := labelOffset_nonneg hl
        exact ⟨⟨fun htarget => by omega, fun hl => absurd hl hnone⟩, fun _ => hlands⟩

end Assembled

/-- **Assembly is faithful.** The code of a buffer, however it was filled, whose operands fit into
their bytes has at most 65535 bytes. Read from the first byte on it is the prologue and then the
body, instruction for instruction and with the same operands, except that a jump has the offset of
the instruction at the place of its label, which is the end of the code for a label at the end. The
jump tables have offsets of that kind as well, and a negative entry exactly where there is no label.
-/
theorem assembly_reads_back {marks : Marks} {c c' : Code} {chunk : Chunk} (hmade : c.Made)
    (hrange : ∀ i ∈ c.prologue.toList ++ c.body.toList, i.InRange)
    (hassemble : Emit.assemble.Yields marks c chunk c') :
    chunk.code.size ≤ 65535 ∧ ∃ code, decodeFrom chunk.code 0 = some code ∧
      Forall₂ (c.ReadsBack code chunk.code.size) (c.prologue.toList ++ c.body.toList) code ∧
      Forall₂ (c.Tabulates code chunk.code.size) c.tables chunk.tables := by
  have h := (assembled_of_yields hassemble).1
  have hplaced := hmade.placed.2
  refine ⟨h.code_size ▸ h.size_le, Assembled.listing c, h.decodeFrom_zero, ?_, ?_⟩
  · exact h.readsBack hplaced hrange
  · exact h.tabulates hplaced

/-- A choice with an entry that has no label, and a default at the end of the code. -/
def choosing : List BufferOp :=
  [.newLabel, .newLabel, .prologue [.loadNone, .storeLocal ⟨0, by decide⟩],
    .loadLocal ⟨0, by decide⟩, .jumpTable [Label.none, 0] 1, .mark 0, .loadNone, .ret, .mark 1]

theorem assembly_reads_back_choosing :
    ∃ c chunk c', c.Made ∧ Emit.assemble.Yields (fun _ _ => false) c chunk c' ∧
      ∃ code, decodeFrom chunk.code 0 = some code ∧
        code.map Decoded.op = [.loadNone, .storeLocal, .loadLocal, .jumpTable, .loadNone, .ret] ∧
        ∃ t table, chunk.tables = [table] ∧ c.tables = [t] ∧
          c.Tabulates code chunk.code.size t table := by
  generalize hresult : (BufferOp.emitAll choosing (fun _ _ => false) (Code.create "f" ["x"]) :
    Except Failure Unit × Code) = outcome
  have hmade : outcome.2.Made := by
    rw [← hresult]
    exact (Code.Made.create "f" ["x"]).emitAll _ choosing
  have hinstrs : (outcome.2.prologue.toList ++ outcome.2.body.toList) =
      [⟨.loadNone, 0⟩, ⟨.storeLocal, 0⟩, ⟨.loadLocal, 0⟩, ⟨.jumpTable, 0⟩, ⟨.loadNone, 0⟩,
        ⟨.ret, 0⟩] := by
    rw [← hresult]
    decide +kernel
  have htables : outcome.2.tables = [⟨[Label.none, 0], 1⟩] := by
    rw [← hresult]
    decide +kernel
  have hassembles : (Emit.assemble (fun _ _ => false) outcome.2 :
      Except Failure Chunk × Code).1.isOk := by
    rw [← hresult]
    decide +kernel
  obtain ⟨_, c⟩ := outcome
  rcases hassemble : (Emit.assemble (fun _ _ => false) c : Except Failure Chunk × Code) with
    ⟨_ | chunk, c'⟩
  · rw [hassemble] at hassembles
    cases hassembles
  have hrange : ∀ i ∈ c.prologue.toList ++ c.body.toList, i.InRange := by
    rw [hinstrs]
    decide
  obtain ⟨-, code, hcode, hreads, htabulates⟩ := assembly_reads_back hmade hrange hassemble
  refine ⟨c, chunk, c', hmade, hassemble, code, hcode, ?_, ?_⟩
  · have hops : Forall₂ (· = ·) (code.map Decoded.op)
        ((c.prologue.toList ++ c.body.toList).map Instr.op) :=
      forall₂_map_left_iff.mpr (forall₂_map_right_iff.mpr
        (hreads.flip.imp fun d i h => h.1))
    rw [forall₂_eq_eq_eq, hinstrs] at hops
    exact hops
  · rw [htables, forall₂_cons_left_iff] at htabulates
    obtain ⟨table, rest, htable, hrest, hchunk⟩ := htabulates
    obtain rfl := forall₂_nil_left_iff.mp hrest
    exact ⟨_, table, hchunk, htables, htable⟩

end ExprBackend
