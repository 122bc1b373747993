import ExprBackend.Machine.Call
import ExprBackend.Proofs.Emission

/-! # Assembled code

An assembled chunk holds the instructions of its buffer one behind the other.
The machine that stands at the offset of an instruction carries out that
instruction and then stands at the offset of the next; the operand of a jump is
the offset of the place of its label.
-/

namespace ExprBackend

open List

variable {c : Code} {chunk : Chunk} {i k : Nat} {ins : Instr} {op : Opcode} {operand : Int}
  {t : TableSpec}

/-- The offset of the instruction with an index, or the offset behind all of them. -/
def codeOffset (instrs : List Instr) (i : Nat) : Nat := ((instrs.take i).map Instr.size).sum

variable {n : Nat} {resolve : Label → Except Failure Int} {is : List Instr} {code : Array UInt8}
  {marks : Marks} {c' : Code}

theorem codeOffset_succ {instrs : List Instr} (h : instrs[i]? = some ins) :
    codeOffset instrs (i + 1) = codeOffset instrs i + ins.size := by
  rw [codeOffset, take_add_one, h]
  simp [codeOffset]

theorem codeOffset_le (instrs : List Instr) (i : Nat) :
    codeOffset instrs i ≤ (instrs.map Instr.size).sum := by
  have hsplit : (instrs.map Instr.size).sum =
      codeOffset instrs i + ((instrs.drop i).map Instr.size).sum := by
    rw [codeOffset, ← sum_append, ← map_append, take_append_drop]
  omega

theorem length_le_sum_size (instrs : List Instr) :
    instrs.length ≤ (instrs.map Instr.size).sum := by
  induction instrs with
  | nil => simp
  | cons ins rest ih =>
    simp only [length_cons, map_cons, sum_cons, Instr.size]
    omega

namespace Code

def instrs (c : Code) : List Instr := c.prologue.toList ++ c.body.toList

def place (c : Code) (k : Nat) : Nat := codeOffset c.instrs (c.prologue.size + k)

theorem sizeOfAll_eq (is : Array Instr) : sizeOfAll is = (is.toList.map Instr.size).sum := by
  have hfold : ∀ (l : List Instr) (n : Nat),
      l.foldl (fun n i => n + i.size) n = n + (l.map Instr.size).sum := by
    intro l
    induction l with
    | nil => simp
    | cons i rest ih =>
      intro n
      simp only [foldl_cons, ih, map_cons, sum_cons]
      omega
  rw [sizeOfAll, ← Array.foldl_toList, hfold, Nat.zero_add]

theorem size_eq (c : Code) : c.size = (c.instrs.map Instr.size).sum := by
  rw [size, sizeOfAll_eq, sizeOfAll_eq, instrs, map_append, sum_append]

theorem instrs_getElem? (c : Code) (k : Nat) : c.instrs[c.prologue.size + k]? = c.body[k]? := by
  rw [instrs, getElem?_append_right (by simp)]
  simp

theorem body_size_le_size (c : Code) : c.body.size ≤ c.size := by
  have hlength := length_le_sum_size c.instrs
  rw [← size_eq] at hlength
  simp only [instrs, length_append, Array.length_toList] at hlength
  omega

theorem place_le_size (c : Code) (k : Nat) : c.place k ≤ c.size := by
  rw [size_eq]
  exact codeOffset_le _ _

/-- Recording offsets keeps those already found, and goes on with the sums of the sizes. -/
theorem recorded_getElem? (is : List Instr) (found : Array Nat) (offset : Nat) :
    let recorded := (is.foldl (fun (found, offset) i =>
      (found.push (offset + i.size), offset + i.size)) (found, offset)).1
    (∀ j < found.size, recorded[j]? = found[j]?) ∧
      ∀ j < is.length, recorded[found.size + j]? = some (offset + codeOffset is (j + 1)) := by
  induction is generalizing found offset with
  | nil => simp
  | cons i rest ih =>
    obtain ⟨hkept, hnew⟩ := ih (found.push (offset + i.size)) (offset + i.size)
    rw [Array.size_push] at hkept hnew
    rw [foldl_cons]
    refine ⟨fun j hj => ?_, fun j hj => ?_⟩
    · rw [hkept j (by omega), Array.getElem?_push_lt hj, Array.getElem?_eq_getElem hj]
    · cases j with
      | zero =>
        rw [Nat.add_zero, hkept _ (by omega), Array.getElem?_push_size]
        simp [codeOffset]
      | succ j =>
        have hplace : found.size + (j + 1) = found.size + 1 + j := by omega
        rw [hplace, hnew j (by simpa using hj)]
        simp only [codeOffset, take_succ_cons, map_cons, sum_cons]
        congr 1
        omega

/-- The recorded offsets are those of the places in the body. -/
theorem offsets_getElem? (c : Code) (h : k ≤ c.body.size) : c.offsets[k]? = some (c.place k) := by
  obtain ⟨hkept, hnew⟩ :=
    recorded_getElem? c.body.toList #[sizeOfAll c.prologue] (sizeOfAll c.prologue)
  rw [Array.foldl_toList] at hkept hnew
  have hplace : c.place k = sizeOfAll c.prologue + codeOffset c.body.toList k := by
    rw [place, codeOffset, instrs, take_append, sizeOfAll_eq, codeOffset,
      take_of_length_le (by simp)]
    simp
  rw [hplace]
  cases k with
  | zero =>
    rw [offsets, hkept 0 (by simp)]
    simp [codeOffset]
  | succ k =>
    have hindex : k + 1 = (#[sizeOfAll c.prologue] : Array Nat).size + k := by
      simp [Nat.add_comm]
    rw [offsets, hindex, hnew k h, ← hindex]

end Code

/-- The number that a machine reads from an operand of the given width. -/
def decoded (width : Nat) (operand : Int) : Nat :=
  match width with
  | 0 => 0
  | 1 => (operand % 256).toNat
  | _ => (operand % 65536).toNat

/-- A count, an index or a slot is read back as it was written. -/
theorem decoded_word (hop : op.width = 2) (hn : n ≤ 65535) : decoded op.width n = n := by
  rw [hop, decoded]
  · omega
  · decide
  · decide

def Instr.encoded (resolve : Label → Except Failure Int) (i : Instr) : List UInt8 :=
  i.op.code :: operandBytes i.op.width ((i.resolved resolve).toOption.getD 0)

theorem length_operandBytes (op : Opcode) (operand : Int) :
    (operandBytes op.width operand).length = op.width := by
  cases op <;> rfl

theorem Instr.length_encoded (resolve : Label → Except Failure Int) (i : Instr) :
    (i.encoded resolve).length = i.size := by
  rw [encoded, length_cons, length_operandBytes, size, Nat.add_comm]

theorem Opcode.ofCode?_code (op : Opcode) : ofCode? op.code = some op := by
  cases op <;> rfl

/-- Encoding that succeeds has found the offset of every label, and writes the instructions one
behind the other. -/
theorem encodeAll_ok {code' : Array UInt8} (h : encodeAll resolve is code = (code', .ok ())) :
    (∀ i ∈ is, ∃ operand, i.resolved resolve = .ok operand) ∧
      code'.toList = code.toList ++ is.flatMap (·.encoded resolve) := by
  induction is generalizing code with
  | nil =>
    cases h
    simp
  | cons i rest ih =>
    rw [encodeAll] at h
    cases hresolved : i.resolved resolve with
    | error failure =>
      rw [hresolved] at h
      cases h
    | ok operand =>
      rw [hresolved] at h
      obtain ⟨hall, hcode⟩ := ih h
      refine ⟨forall_mem_cons.mpr ⟨⟨operand, hresolved⟩, hall⟩, ?_⟩
      rw [hcode]
      simp [Instr.encoded, hresolved, Except.toOption]

/-- What is read at the offset of an instruction are its bytes. -/
theorem drop_flatMap_encoded (resolve : Label → Except Failure Int) (h : is[i]? = some ins) :
    ∃ rest, (is.flatMap (·.encoded resolve)).drop (codeOffset is i) =
      ins.encoded resolve ++ rest := by
  induction is generalizing i with
  | nil => simp at h
  | cons first others ih =>
    cases i with
    | zero =>
      obtain rfl : first = ins := by simpa using h
      exact ⟨others.flatMap (·.encoded resolve), by simp [codeOffset]⟩
    | succ i =>
      obtain ⟨rest, hrest⟩ := ih (i := i) (by simpa using h)
      refine ⟨rest, ?_⟩
      rw [flatMap_cons, ← hrest]
      simp only [codeOffset, take_succ_cons, map_cons, sum_cons]
      rw [← Instr.length_encoded resolve first, drop_append]
      simp

/-- The label at which a jump table goes on for a value. -/
def TableSpec.labelFor (t : TableSpec) : Value → Label
  | .int i =>
    if 0 ≤ i.toInt then
      match t.targets[i.toInt.toNat]? with
      | some l => if l = Label.none then t.default else l
      | none => t.default
    else t.default
  | _ => t.default

/-- That label is the default or one of the targets. -/
theorem TableSpec.labelFor_mem (t : TableSpec) (v : Value) :
    t.labelFor v ∈ t.default :: t.targets.filter (· ≠ Label.none) := by
  cases v with
  | int i =>
    rw [labelFor]
    split
    next =>
      split
      next l hl =>
        split
        next => exact mem_cons_self
        next hne =>
          exact mem_cons_of_mem _ (mem_filter.mpr ⟨mem_of_getElem? hl, by simpa using hne⟩)
      next => exact mem_cons_self
    next => exact mem_cons_self
  | _ => exact mem_cons_self

theorem resolveTargets_cons (resolve : Label → Except Failure Int) (l : Label) (rest : List Label) :
    resolveTargets resolve (l :: rest) =
      (if l = Label.none then .ok (-1) else resolve l) >>= fun target =>
        resolveTargets resolve rest >>= fun targets => .ok (target :: targets) := by
  rw [resolveTargets]
  split <;> rfl

theorem resolveTargets_getElem? {labels : List Label} {targets : List Int}
    (h : resolveTargets resolve labels = .ok targets) (i : Nat) : match labels[i]? with
    | some l => ∃ target, targets[i]? = some target ∧
        (if l = Label.none then .ok (-1) else resolve l) = .ok target
    | none => targets[i]? = none := by
  induction labels generalizing targets i with
  | nil =>
    cases h
    simp
  | cons l rest ih =>
    rw [resolveTargets_cons] at h
    cases htarget : (if l = Label.none then .ok (-1) else resolve l) with
    | error failure =>
      rw [htarget] at h
      cases h
    | ok target =>
      rw [htarget] at h
      cases hrest : resolveTargets resolve rest with
      | error failure =>
        rw [hrest] at h
        cases h
      | ok others =>
        rw [hrest] at h
        cases h
        cases i with
        | zero => exact ⟨target, rfl, htarget⟩
        | succ i => exact ih hrest i

/-- A jump table that is resolved goes on at the offset of the label for a value. -/
theorem TableSpec.resolve_labelFor (hnonneg : ∀ l target, resolve l = .ok target → 0 ≤ target)
    {table : JumpTable} (h : t.resolve resolve = .ok table) (v : Value) :
    resolve (t.labelFor v) = .ok (table.lookup v) := by
  rw [TableSpec.resolve] at h
  cases htargets : resolveTargets resolve t.targets with
  | error failure =>
    rw [htargets] at h
    cases h
  | ok targets =>
    rw [htargets] at h
    cases hdefault : resolve t.default with
    | error failure =>
      rw [hdefault] at h
      cases h
    | ok default =>
      rw [hdefault] at h
      cases h
      cases v with
      | int i =>
        rw [labelFor, JumpTable.lookup]
        split
        next =>
          have htarget := resolveTargets_getElem? htargets i.toInt.toNat
          cases hlabel : t.targets[i.toInt.toNat]? with
          | none =>
            simp only [hlabel] at htarget
            simp only [htarget, hdefault]
          | some l =>
            simp only [hlabel] at htarget
            obtain ⟨target, hplace, hresolve⟩ := htarget
            simp only [hplace]
            split at hresolve
            next hnone =>
              cases hresolve
              rw [if_pos hnone, if_neg (by decide), hdefault]
            next hsome =>
              rw [if_neg hsome, if_pos (hnonneg l target hresolve), hresolve]
        next => exact hdefault
      | _ => exact hdefault

theorem resolveTables_getElem? {resolve : Label → Except Failure Int} {specs : List TableSpec}
    {tables : List JumpTable} (h : resolveTables resolve specs = (tables, .ok ())) {i : Nat}
    {t : TableSpec} (ht : specs[i]? = some t) :
    ∃ table, tables[i]? = some table ∧ t.resolve resolve = .ok table := by
  induction specs generalizing tables i with
  | nil => simp at ht
  | cons spec rest ih =>
    rw [resolveTables] at h
    cases hspec : spec.resolve resolve with
    | error failure =>
      rw [hspec] at h
      cases h
    | ok table =>
      rw [hspec] at h
      cases hrest : resolveTables resolve rest with
      | mk others result =>
        rw [hrest] at h
        cases h
        cases i with
        | zero =>
          cases ht
          exact ⟨table, rfl, hspec⟩
        | succ i => exact ih hrest ht

/-- A chunk is what the assembly of a buffer has made. -/
structure Assembled (c : Code) (chunk : Chunk) : Prop where
  size_le : c.size ≤ 65535
  tables : resolveTables (c.labelOffset c.offsets) c.tables = (chunk.tables, .ok ())
  code : encodeAll (c.labelOffset c.offsets) c.instrs #[] = (chunk.code, .ok ())
  constants : chunk.constants = c.chunk.constants
  localNames : chunk.localNames = c.locals
  maxStack : chunk.maxStack = c.maxDepth

theorem Emit.yields_ofExcept {α : Type} {a : α} {result : Except Failure α} :
    (Emit.ofExcept result).Yields marks c a c' ↔ result = .ok a ∧ c = c' := by
  cases result with
  | error failure => simp [ofExcept, yields_throw]
  | ok b => simp [ofExcept, yields_pure]

/-- Assembly that succeeds gives an assembled chunk, and leaves the names of the buffer alone. -/
theorem assembled_of_yields (h : Emit.assemble.Yields marks c chunk c') :
    Assembled c chunk ∧ c'.name = c.name ∧ c'.locals = c.locals ∧ c'.paramCount = c.paramCount := by
  rw [Emit.assemble, Emit.yields_get_bind] at h
  obtain ⟨-, h⟩ | ⟨hsize, h⟩ := Emit.yields_ite.mp h
  · simp [Emit.yields_bind, Emit.yields_fail] at h
  cases htables : resolveTables (c.labelOffset c.offsets) c.tables with
  | mk tables result =>
  cases hcode : encodeAll (c.labelOffset c.offsets) (c.prologue.toList ++ c.body.toList) #[] with
  | mk code result' =>
  simp only [htables, hcode, Emit.modifyChunk, Emit.yields_bind, Emit.yields_modify,
    Emit.yields_ofExcept, Emit.yields_get, Emit.yields_report, Emit.yields_pure] at h
  obtain ⟨_, _, rfl, _, _, ⟨rfl, rfl⟩, _, _, rfl, _, _, ⟨rfl, rfl⟩, _, _, rfl, _, _, ⟨rfl, rfl⟩, _,
    _, rfl, rfl, rfl⟩ := h
  exact ⟨⟨by omega, htables, hcode, rfl, rfl, rfl⟩, rfl, rfl, rfl⟩

theorem byteAt_natCast (code : Array UInt8) (n : Nat) :
    Machine.byteAt code n = code.toList[n]? := by
  simp [Machine.byteAt]

/-- The operand that is read behind an operation is the one that was written there. -/
theorem operandAt_of_drop {first : UInt8} {rest : List UInt8}
    (h : code.toList.drop n = first :: (operandBytes op.width operand ++ rest)) :
    Machine.operandAt code (n + 1 : Int) op.width = some (decoded op.width operand) := by
  have hbyte : ∀ j : Nat, Machine.byteAt code (n + 1 + j : Int) =
      (operandBytes op.width operand ++ rest)[j]? := by
    intro j
    have hindex : (n + 1 + j : Int) = ((n + (j + 1) : Nat) : Int) := by omega
    rw [hindex, byteAt_natCast, ← getElem?_drop, h, getElem?_cons_succ]
  have hfirst := hbyte 0
  have hsecond := hbyte 1
  rw [Int.natCast_zero, Int.add_zero] at hfirst
  rw [Int.natCast_one] at hsecond
  have hmod : (operand % 65536).toNat < 65536 := by omega
  have hwidth : op.width = 0 ∨ op.width = 1 ∨ op.width = 2 := by cases op <;> decide
  rcases hwidth with hwidth | hwidth | hwidth
  · rw [hwidth]
    rfl
  · rw [hwidth] at hfirst ⊢
    simp only [Machine.operandAt, hfirst, operandBytes, decoded]
    simp
    omega
  · rw [hwidth] at hfirst hsecond ⊢
    simp only [Machine.operandAt, hfirst, hsecond, operandBytes, decoded, Chunk.wordBytes]
    simp
    omega

namespace Assembled

variable {l : Label}

/-- At the offset of an instruction the machine carries it out, in a frame that points behind
it. -/
theorem step_eq (h : Assembled c chunk) (hins : c.instrs[i]? = some ins) :
    ∃ operand, ins.resolved (c.labelOffset c.offsets) = .ok operand ∧
      ∀ call closure locals stack,
        Machine.step call closure chunk ⟨locals, stack, codeOffset c.instrs i⟩ =
          Machine.execute call closure chunk ins.op (decoded ins.op.width operand)
            ⟨locals, stack, codeOffset c.instrs (i + 1)⟩ := by
  obtain ⟨hresolves, hbytes⟩ := encodeAll_ok h.code
  obtain ⟨operand, hoperand⟩ := hresolves ins (mem_of_getElem? hins)
  obtain ⟨rest, hdrop⟩ := drop_flatMap_encoded (c.labelOffset c.offsets) hins
  have hcode : chunk.code.toList.drop (codeOffset c.instrs i) =
      ins.op.code :: (operandBytes ins.op.width operand ++ rest) := by
    rw [hbytes, nil_append, hdrop, Instr.encoded, hoperand]
    rfl
  have hinside : codeOffset c.instrs i < chunk.code.size := by
    rw [← Array.length_toList, ← Nat.not_le]
    intro hle
    rw [drop_eq_nil_of_le hle] at hcode
    cases hcode
  have hop : Machine.byteAt chunk.code (codeOffset c.instrs i) = some ins.op.code := by
    rw [byteAt_natCast, ← Nat.add_zero (codeOffset _ _), ← getElem?_drop, hcode]
    rfl
  refine ⟨operand, hoperand, fun call closure locals stack => ?_⟩
  have hnext : (codeOffset c.instrs i : Int) + 1 + ins.op.width = codeOffset c.instrs (i + 1) := by
    rw [codeOffset_succ hins, Instr.size]
    omega
  rw [Machine.step, if_neg (by simpa using hinside)]
  simp only [hop, Opcode.ofCode?_code, operandAt_of_drop hcode, hnext]

/-- The code has as many bytes as its instructions together. -/
theorem code_size (h : Assembled c chunk) : chunk.code.size = c.size := by
  rw [← Array.length_toList, (encodeAll_ok h.code).2, c.size_eq]
  simp [length_flatMap, Instr.length_encoded]

theorem place_le (h : Assembled c chunk) (k : Nat) : c.place k ≤ 65535 :=
  Nat.le_trans (c.place_le_size k) h.size_le

/-- Code that is assembled has no more instructions than bytes. -/
theorem instrs_le (h : Assembled c chunk) : c.prologue.toList.length + c.body.size ≤ 65535 := by
  have hlength := length_le_sum_size c.instrs
  have hle := h.size_le
  rw [← c.size_eq, Code.instrs, length_append] at hlength
  simp only [Array.length_toList] at hlength ⊢
  omega

theorem body_size_le (h : Assembled c chunk) : c.body.size ≤ 65535 :=
  Nat.le_trans c.body_size_le_size h.size_le

/-- At a place of the body the machine carries out the instruction there. -/
theorem step_body (h : Assembled c chunk) (hins : c.body[k]? = some ⟨op, operand⟩)
    (hop : op.isJump = false) (call : Caller) (closure : Closure) (locals : Array Value)
    (stack : List Value) : Machine.step call closure chunk ⟨locals, stack, c.place k⟩ =
      Machine.execute call closure chunk op (decoded op.width operand)
        ⟨locals, stack, c.place (k + 1)⟩ := by
  rw [← c.instrs_getElem?] at hins
  obtain ⟨found, hfound, hstep⟩ := h.step_eq hins
  obtain rfl : operand = found := by simpa [Instr.resolved, hop] using hfound
  exact hstep call closure locals stack

/-- A jump in the body goes to the place of its label. -/
theorem step_jump (h : Assembled c chunk) {p : Nat} {info : LabelInfo}
    (hins : c.body[k]? = some ⟨op, l⟩) (hop : op.isJump = true) (hlabel : c.label? l = some info)
    (hposition : info.position = some p) (hp : p ≤ c.body.size) (call : Caller) (closure : Closure)
    (locals : Array Value) (stack : List Value) :
    Machine.step call closure chunk ⟨locals, stack, c.place k⟩ =
      Machine.execute call closure chunk op (c.place p) ⟨locals, stack, c.place (k + 1)⟩ := by
  rw [← c.instrs_getElem?] at hins
  obtain ⟨found, hfound, hstep⟩ := h.step_eq hins
  have htarget : found = c.place p := by
    rw [Instr.resolved, if_pos hop, Code.labelOffset, hlabel] at hfound
    simp only [hposition, c.offsets_getElem? hp, Option.getD_some] at hfound
    cases hfound
    rfl
  have hdecoded : decoded op.width found = c.place p := by
    have hwidth : op.width = 2 := by cases op <;> first | rfl | cases hop
    have hle := h.place_le p
    rw [hwidth, htarget, decoded]
    · omega
    · decide
    · decide
  rw [← hdecoded]
  exact hstep call closure locals stack

theorem labelOffset_nonneg {offset : Int} (h : c.labelOffset c.offsets l = .ok offset) :
    0 ≤ offset := by
  rw [Code.labelOffset] at h
  split at h
  next => cases h
  next =>
    split at h
    next => cases h
    next =>
      cases h
      omega

/-- A jump table goes on at the offset of the label for a value. -/
theorem lookup_eq (h : Assembled c chunk) (ht : c.tables[i]? = some t) :
    ∃ table, chunk.tables[i]? = some table ∧
      ∀ v, c.labelOffset c.offsets (t.labelFor v) = .ok (table.lookup v) := by
  obtain ⟨table, htable, hresolve⟩ := resolveTables_getElem? h.tables ht
  exact ⟨table, htable, TableSpec.resolve_labelFor (fun l target => labelOffset_nonneg) hresolve⟩

/-- A jump table goes on at the place of the label for a value. -/
theorem table_lookup (h : Assembled c chunk) (ht : c.tables[i]? = some t) :
    ∃ table, chunk.tables[i]? = some table ∧ ∀ v info p, c.label? (t.labelFor v) = some info →
      info.position = some p → p ≤ c.body.size → table.lookup v = c.place p := by
  obtain ⟨table, htable, hlookup⟩ := h.lookup_eq ht
  refine ⟨table, htable, fun v info p hlabel hposition hp => ?_⟩
  have hoffset := hlookup v
  rw [Code.labelOffset, hlabel] at hoffset
  simp only [hposition, c.offsets_getElem? hp, Option.getD_some, Except.ok.injEq] at hoffset
  exact hoffset.symm

end Assembled

end ExprBackend
