import ExprBackend.Proofs.Annotation

/-! # Using a buffer

Code can be emitted into a buffer operation by operation, in any order. Before
each instruction the buffer reports how high the stack is and whether the place
can be reached. If no operation is asked for where the stack is too low for it, the
reports are right: whenever the assembled code is about to carry out an
instruction, the stack is as high as was reported for it.
-/

namespace ExprBackend

open List

variable {c c' : Code} {change operand : Int} {l : Label} {mine theirs : List Standing}
  {op : Opcode} {others : List Instr} {u : Unit}

/-- An operation on a buffer. Counts and slots are words of two bytes. -/
inductive BufferOp where
  | newLabel
  | namedLabel (name : Text)
  | declareLocal (name : Text)
  | mark (l : Label)
  | prologue (ops : List BufferOp)
  | jump (l : Label)
  | jumpIfFalse (l : Label)
  | jumpIfTrue (l : Label)
  | jumpIfFalseOrPop (l : Label)
  | jumpIfTrueOrPop (l : Label)
  | jumpTable (targets : List Label) (default : Label)
  | loadConst (v : Value)
  | loadNone
  | loadLocal (slot : Fin 65536)
  | loadName (name : Text)
  | storeLocal (slot : Fin 65536)
  | storeName (name : Text)
  | pop
  | dup
  | rot2
  | rot3
  | unary (code : UInt8)
  | binary (code : UInt8)
  | compare (code : UInt8)
  | getIndex
  | storeIndex
  | buildSlice
  | getAttr (name : Text)
  | loadMethod (name : Text)
  | buildList (count : Fin 65536)
  | buildTuple (count : Fin 65536)
  | buildDict (count : Fin 65536)
  | listExtend
  | dictMerge
  | unpack (count : Fin 65536)
  | call (count : Fin 65536)
  | callMethod (count : Fin 65536)
  | callEx (method : Bool)
  | ret
  | invalidAction

namespace BufferOp

mutual

def emit : BufferOp → Emit Unit
  | .newLabel => do let _ ← Emit.newLabel
  | .namedLabel name => do let _ ← Emit.namedLabel name
  | .declareLocal name => do let _ ← Emit.localSlot name
  | .mark l => Emit.mark l
  | .prologue ops => Emit.prologue (emitAll ops)
  | .jump l => Emit.jump l
  | .jumpIfFalse l => Emit.jumpIfFalse l
  | .jumpIfTrue l => Emit.jumpIfTrue l
  | .jumpIfFalseOrPop l => Emit.jumpIfFalseOrPop l
  | .jumpIfTrueOrPop l => Emit.jumpIfTrueOrPop l
  | .jumpTable targets default => Emit.jumpTable targets default
  | .loadConst v => Emit.loadConst v
  | .loadNone => Emit.loadNone
  | .loadLocal slot => Emit.loadLocal slot.val
  | .loadName name => Emit.loadName name
  | .storeLocal slot => Emit.storeLocal slot.val
  | .storeName name => Emit.storeName name
  | .pop => Emit.pop
  | .dup => Emit.dup
  | .rot2 => Emit.rot2
  | .rot3 => Emit.rot3
  | .unary code => Emit.unary code
  | .binary code => Emit.binary code
  | .compare code => Emit.compare code
  | .getIndex => Emit.getIndex
  | .storeIndex => Emit.storeIndex
  | .buildSlice => Emit.buildSlice
  | .getAttr name => Emit.getAttr name
  | .loadMethod name => Emit.loadMethod name
  | .buildList count => Emit.buildList count.val
  | .buildTuple count => Emit.buildTuple count.val
  | .buildDict count => Emit.buildDict count.val
  | .listExtend => Emit.listExtend
  | .dictMerge => Emit.dictMerge
  | .unpack count => Emit.unpack count.val
  | .call count => Emit.call count.val
  | .callMethod count => Emit.callMethod count.val
  | .callEx method => Emit.callEx method
  | .ret => Emit.ret
  | .invalidAction => Emit.invalidAction

def emitAll : List BufferOp → Emit Unit
  | [] => pure ()
  | op :: rest => do
    emit op
    emitAll rest

end

def appends : BufferOp → Bool
  | .newLabel | .namedLabel _ | .declareLocal _ | .mark _ | .prologue _ => false
  | _ => true

/-- The number of operands that the instruction of an operation reads. -/
def needs : BufferOp → Nat
  | .newLabel | .namedLabel _ | .declareLocal _ | .mark _ | .prologue _ | .jump _ | .loadConst _
  | .loadNone | .loadLocal _ | .loadName _ => 0
  | .jumpIfFalse _ | .jumpIfTrue _ | .jumpIfFalseOrPop _ | .jumpIfTrueOrPop _ | .jumpTable _ _
  | .storeLocal _ | .storeName _ | .pop | .dup | .unary _ | .getAttr _ | .loadMethod _ | .unpack _
  | .ret | .invalidAction => 1
  | .rot2 | .binary _ | .compare _ | .getIndex | .listExtend | .dictMerge => 2
  | .rot3 | .storeIndex | .buildSlice => 3
  | .buildList count | .buildTuple count => count
  | .buildDict count => 2 * count
  | .call count => count + 1
  | .callMethod count => count + 2
  | .callEx method => if method then 4 else 3

/-- A report of a buffer: what it knows of the next place in its prologue or in its body. -/
structure Report where
  inside : Bool
  standing : Standing

section

variable (marks : Marks)

mutual

/-- The reports of a buffer before each instruction that an operation appends. -/
def reports : BufferOp → Code → List Report
  | .prologue ops, c => reportsAll ops (if c.inPrologue then c else c.opened)
  | op, c => if op.appends then [⟨c.inPrologue, c.standing⟩] else []

def reportsAll : List BufferOp → Code → List Report
  | [], _ => []
  | op :: rest, c =>
    reports op c ++ reportsAll rest (emit op marks c : Except Failure Unit × Code).2

end

mutual

/-- Whether an operation is asked for only where the stack is high enough for it. -/
def careful : BufferOp → Code → Bool
  | .prologue ops, c => carefulAll ops (if c.inPrologue then c else c.opened)
  | op, c => !c.reachable || decide ((op.needs : Int) ≤ c.depth)

def carefulAll : List BufferOp → Code → Bool
  | [], _ => true
  | op :: rest, c =>
    careful op c && carefulAll rest (emit op marks c : Except Failure Unit × Code).2

end

end

/-- The reports about the prologue, or those about the body. -/
def side (inside : Bool) (reports : List Report) : List Standing :=
  (reports.filter (·.inside == inside)).map Report.standing

end BufferOp

/-! ## The reports are right -/

namespace Code

/-- A buffer whose code is small enough to be assembled is sound. -/
def Tracks (c : Code) (mine : List Standing) (others : List Instr) (theirs : List Standing) :
    Prop :=
  others.length + c.body.size ≤ 65535 → c.Sound 65535 mine others theirs

namespace Tracks

variable {marks : Marks}

theorem of_size {mine' : List Standing} (h : c.Tracks mine others theirs)
    (hsize : c.body.size ≤ c'.body.size)
    (hsound : others.length + c.body.size ≤ 65535 → c.Sound 65535 mine others theirs →
      c'.Sound 65535 mine' others theirs) : c'.Tracks mine' others theirs := by
  intro hsize'
  have hle : others.length + c.body.size ≤ 65535 := by omega
  exact hsound hle (h hle)

theorem pooled (h : c.Tracks mine others theirs) (v : Value) :
    (c.pooled v).Tracks mine others theirs :=
  fun hsize => (h hsize).of_eq rfl rfl rfl rfl rfl rfl rfl

theorem declared (h : c.Tracks mine others theirs) (name : Text) :
    (c.declared name).Tracks mine others theirs := by
  rw [declared_eq]
  exact fun hsize => (h hsize).of_eq rfl rfl rfl rfl rfl rfl rfl

theorem appended (h : c.Tracks mine others theirs)
    (hadmits : c.reachable = true → c.Admits 65535 op operand change) :
    (c.appended op operand change).Tracks (mine ++ [c.standing]) others theirs := by
  refine h.of_size ?_ fun hsize hsound => hsound.appended (by decide) hsize hadmits
  rw [appended_body, Array.size_push]
  exact Nat.le_succ _

theorem appended_ended (h : c.Tracks mine others theirs) (hfalls : op.falls = false)
    (hadmits : c.reachable = true → c.Admits 65535 op operand change) :
    (c.appended op operand change).ended.Tracks (mine ++ [c.standing]) others theirs := by
  refine h.of_size ?_ fun _ hsound => hsound.appended_ended hfalls hadmits
  rw [ended_body, appended_body, Array.size_push]
  exact Nat.le_succ _

end Tracks

end Code

namespace BufferOp

open Emit

variable {marks : Marks}

/-- What becomes of a buffer by one operation that is no prologue. -/
structure Keeps (c c' : Code) (reported : List Standing) (mine : List Standing)
    (others : List Instr) (theirs : List Standing) : Prop where
  tracks : c'.Tracks (mine ++ reported) others theirs
  inside : c'.inPrologue = c.inPrologue
  prologue : c'.prologue = c.prologue

/-- An instruction that is no jump is appended, whose operand is a word. -/
theorem Keeps.plain (h : c.Tracks mine others theirs) {needs : Nat}
    (hcareful : c.reachable = true → (needs : Int) ≤ c.depth) {number : Nat}
    (hnumber : decoded op.width operand = number) (hjump : op.isJump = false)
    (htable : op ≠ .jumpTable) (hreads : op.reads number = needs)
    (hchange : change = op.change number) (hrise : change ≤ 65535) :
    Keeps c (c.appended op operand change) [c.standing] mine others theirs := by
  refine ⟨h.appended fun hlive => ?_, rfl, rfl⟩
  subst hnumber
  exact Code.admits_plain hjump htable (hreads ▸ hcareful hlive) hchange hrise

/-- The same, after something has changed that the code does not depend on. -/
theorem Keeps.after {c1 : Code} {reported : List Standing}
    (h : Keeps c1 c' reported mine others theirs) (hinside : c1.inPrologue = c.inPrologue)
    (hprologue : c1.prologue = c.prologue) : Keeps c c' reported mine others theirs :=
  ⟨h.tracks, h.inside.trans hinside, h.prologue.trans hprologue⟩

theorem keeps_labelled (h : c.Tracks mine others theirs) :
    Keeps c c.labelled [] mine others theirs := by
  refine ⟨fun hsize => ?_, rfl, rfl⟩
  rw [append_nil]
  exact (h hsize).labelled

theorem keeps_mark (h : c.Tracks mine others theirs) (hyields : (Emit.mark l).Yields marks c u c') :
    Keeps c c' [] mine others theirs := by
  obtain ⟨houtside, info, hinfo, -, hdepth, rfl⟩ := marked_of_yields hyields
  refine ⟨fun hsize => ?_, rfl, rfl⟩
  rw [append_nil]
  exact (h hsize).marked houtside hinfo hdepth

theorem keeps_namedLabel {name : Text} (h : c.Tracks mine others theirs)
    (hyields : (Emit.namedLabel name).Yields marks c l c') : Keeps c c' [] mine others theirs := by
  rw [Emit.namedLabel, yields_get_bind] at hyields
  cases hname : c.namedLabels.lookup name with
  | some found =>
    rw [hname] at hyields
    obtain ⟨-, rfl⟩ := yields_pure.mp hyields
    exact ⟨by simpa using h, rfl, rfl⟩
  | none =>
    rw [hname] at hyields
    obtain ⟨_, c1, hnew, hrest⟩ := yields_bind.mp hyields
    obtain ⟨-, rfl⟩ := yields_newLabel.mp hnew
    obtain ⟨_, c2, hmodify, hpure⟩ := yields_bind.mp hrest
    obtain rfl := yields_modify.mp hmodify
    obtain ⟨-, rfl⟩ := yields_pure.mp hpure
    exact ⟨fun hsize => ((keeps_labelled h).tracks hsize).of_eq rfl rfl rfl rfl rfl rfl rfl, rfl,
      rfl⟩

section Jumps

theorem keeps_jump (h : c.Tracks mine others theirs) (hyields : (Emit.jump l).Yields marks c u c') :
    Keeps c c' [c.standing] mine others theirs := by
  have hgrows := grows.jumpAny l hyields
  obtain ⟨c1, hbranch, rfl⟩ := jump_of_yields hyields
  have heq := hbranch.eq_labels
  exact ⟨h.of_size hgrows.size_le fun _ hsound => hsound.jump hyields, by rw [heq]; rfl,
    by rw [heq]; rfl⟩

theorem keeps_popJump (hop : op = .jumpIfFalse ∨ op = .jumpIfTrue) (h : c.Tracks mine others theirs)
    (hreads : c.reachable = true → 1 ≤ c.depth)
    (hyields : (Emit.popJump op l).Yields marks c u c') :
    Keeps c c' [c.standing] mine others theirs := by
  have hgrows := grows.popJumpAny (by rcases hop with rfl | rfl <;> rfl) l hyields
  have heq := (popJump_of_yields hyields).eq_labels
  exact ⟨h.of_size hgrows.size_le fun hsize hsound =>
      hsound.popJump (by decide) hsize hop hreads hyields, by rw [heq]; rfl, by rw [heq]; rfl⟩

theorem keeps_jumpOrPop (hop : op = .jumpIfFalseOrPop ∨ op = .jumpIfTrueOrPop)
    (h : c.Tracks mine others theirs) (hreads : c.reachable = true → 1 ≤ c.depth)
    (hyields : (Emit.jumpOrPop op l).Yields marks c u c') :
    Keeps c c' [c.standing] mine others theirs := by
  have hgrows := grows.jumpOrPopAny (by rcases hop with rfl | rfl <;> rfl) l hyields
  obtain ⟨c1, hbranch, rfl⟩ := jumpOrPop_of_yields hyields
  have heq := hbranch.eq_labels
  exact ⟨h.of_size hgrows.size_le fun hsize hsound =>
      hsound.jumpOrPop (by decide) hsize hop hreads hyields, by rw [heq]; rfl, by rw [heq]; rfl⟩

theorem keeps_jumpTable {ls : List Label} (h : c.Tracks mine others theirs)
    (hreads : c.reachable = true → 1 ≤ c.depth)
    (hyields : (Emit.jumpTable ls l).Yields marks c u c') :
    Keeps c c' [c.standing] mine others theirs := by
  have hgrows := growing_jumpTable ls l hyields
  obtain ⟨-, c1, c2, hall, hbranch, rfl⟩ := jumpTable_of_yields hyields
  have heq : c2 = { c.appended .jumpTable c.tables.length (-1) with labels := c2.labels } := by
    rw [hbranch.eq_labels, hall.eq_labels]
  exact ⟨h.of_size hgrows.size_le fun hsize hsound =>
      hsound.jumpTable (by decide) hsize hreads hyields, by rw [heq]; rfl, by rw [heq]; rfl⟩

end Jumps

/-- One operation keeps the reports right. -/
theorem keeps_emit {op : BufferOp} (hop : ∀ ops, op ≠ .prologue ops)
    (h : c.Tracks mine others theirs) (hcareful : c.reachable = true → (op.needs : Int) ≤ c.depth)
    (hyields : op.emit.Yields marks c u c') :
    Keeps c c' (if op.appends then [c.standing] else []) mine others theirs := by
  cases op with
  | prologue ops => exact absurd rfl (hop ops)
  | newLabel =>
    obtain ⟨_, c1, hnew, hpure⟩ := yields_bind.mp hyields
    obtain ⟨-, rfl⟩ := yields_newLabel.mp hnew
    obtain ⟨-, rfl⟩ := yields_pure.mp hpure
    exact keeps_labelled h
  | namedLabel name =>
    obtain ⟨_, c1, hlabel, hpure⟩ := yields_bind.mp hyields
    obtain ⟨-, rfl⟩ := yields_pure.mp hpure
    exact keeps_namedLabel h hlabel
  | declareLocal name =>
    obtain ⟨_, c1, hlocal, hpure⟩ := yields_bind.mp hyields
    obtain ⟨-, rfl⟩ := yields_localSlot.mp hlocal
    obtain ⟨-, rfl⟩ := yields_pure.mp hpure
    exact ⟨by simpa [appends] using h.declared name, by rw [Code.declared_eq],
      by rw [Code.declared_eq]⟩
  | mark l => exact keeps_mark h hyields
  | jump l => exact keeps_jump h hyields
  | jumpIfFalse l => exact keeps_popJump (.inl rfl) h hcareful hyields
  | jumpIfTrue l => exact keeps_popJump (.inr rfl) h hcareful hyields
  | jumpIfFalseOrPop l => exact keeps_jumpOrPop (.inl rfl) h hcareful hyields
  | jumpIfTrueOrPop l => exact keeps_jumpOrPop (.inr rfl) h hcareful hyields
  | jumpTable targets default => exact keeps_jumpTable h hcareful hyields
  | loadConst v =>
    obtain rfl := pooled_of_yields hyields
    exact Keeps.after (.plain (h.pooled v) hcareful rfl rfl (by decide) rfl rfl (by decide)) rfl rfl
  | loadName name =>
    rcases loadName_of_yields hyields with ⟨slot, -, rfl⟩ | ⟨-, rfl⟩
    · exact .plain h hcareful rfl rfl (by decide) rfl rfl (by decide)
    · exact Keeps.after (.plain (h.pooled _) hcareful rfl rfl (by decide) rfl rfl (by decide))
        rfl rfl
  | getAttr name =>
    obtain rfl := pooled_of_yields hyields
    exact Keeps.after (.plain (h.pooled _) hcareful rfl rfl (by decide) rfl rfl (by decide)) rfl rfl
  | loadMethod name =>
    obtain rfl := pooled_of_yields hyields
    exact Keeps.after (.plain (h.pooled _) hcareful rfl rfl (by decide) rfl rfl (by decide)) rfl rfl
  | storeName name =>
    obtain rfl := yields_storeName.mp hyields
    have hkeeps : Keeps (c.declared name)
        ((c.declared name).appended .storeLocal (c.declaredSlot name) (-1))
        [(c.declared name).standing] mine others theirs :=
      .plain (h.declared name) (by rw [Code.declared_eq]; exact hcareful) rfl rfl
        (by decide) rfl rfl (by decide)
    have hstanding : (c.declared name).standing = c.standing := by rw [Code.declared_eq]; rfl
    rw [hstanding] at hkeeps
    exact hkeeps.after (by rw [Code.declared_eq]) (by rw [Code.declared_eq])
  | loadNone | loadLocal slot | storeLocal slot | pop | dup | rot2 | rot3 | unary code | binary code
  | compare code | getIndex | storeIndex | buildSlice | listExtend | dictMerge =>
    obtain rfl := yields_append.mp hyields
    exact .plain h hcareful rfl rfl (by decide) rfl rfl (by decide)
  | buildList count | buildTuple count | buildDict count | unpack count | call count
  | callMethod count =>
    obtain rfl := yields_append.mp hyields
    exact .plain h hcareful (decoded_word rfl (by omega)) rfl (by decide) rfl rfl (by omega)
  | callEx method =>
    cases method with
    | true =>
      obtain rfl := yields_append.mp hyields
      exact .plain h hcareful rfl rfl (by decide) rfl rfl (by decide)
    | false =>
      obtain rfl := yields_append.mp hyields
      exact .plain h hcareful rfl rfl (by decide) rfl rfl (by decide)
  | ret =>
    obtain rfl := yields_ret.mp hyields
    exact ⟨h.appended_ended rfl fun hlive => Code.admits_plain rfl (by decide)
      (by exact hcareful hlive) rfl (by decide), rfl, rfl⟩
  | invalidAction =>
    obtain rfl := yields_invalidAction.mp hyields
    exact ⟨h.appended_ended rfl fun hlive => Code.admits_plain rfl (by decide)
      (by exact hcareful hlive) rfl (by decide), rfl, rfl⟩

/-! ### Sequences of operations -/

theorem reports_of_ne {op : BufferOp} (hop : ∀ ops, op ≠ .prologue ops) (c : Code) :
    reports marks op c = if op.appends then [⟨c.inPrologue, c.standing⟩] else [] := by
  cases op with
  | prologue ops => exact absurd rfl (hop ops)
  | _ => rw [reports]; simp

theorem needs_le_of_careful {op : BufferOp} (hop : ∀ ops, op ≠ .prologue ops)
    (h : careful marks op c = true) (hlive : c.reachable = true) : (op.needs : Int) ≤ c.depth := by
  cases op with
  | prologue ops => exact absurd rfl (hop ops)
  | _ => simpa [careful, hlive] using h

/-- Within the prologue all reports are about the prologue. -/
theorem tracks_inside (ops : List BufferOp) {c c' : Code} {mine : List Standing}
    (hinside : c.inPrologue = true) (h : c.Tracks mine others theirs)
    (hcareful : carefulAll marks ops c = true) (hyields : (emitAll ops).Yields marks c u c') :
    c'.inPrologue = true ∧
      c'.Tracks (mine ++ (reportsAll marks ops c).map Report.standing) others theirs ∧
      ∀ r ∈ reportsAll marks ops c, r.inside = true := by
  match ops with
  | [] =>
    obtain ⟨-, rfl⟩ := yields_pure.mp hyields
    exact ⟨hinside, by simpa [reportsAll] using h, by simp [reportsAll]⟩
  | op :: rest =>
    rw [emitAll] at hyields
    obtain ⟨⟨⟩, c1, hfirst, hrest⟩ := yields_bind.mp hyields
    rw [carefulAll, Bool.and_eq_true] at hcareful
    have hnext : (emit op marks c : Except Failure Unit × Code).2 = c1 := congrArg Prod.snd hfirst
    rw [hnext] at hcareful
    have hone : c1.inPrologue = true ∧
        c1.Tracks (mine ++ (reports marks op c).map Report.standing) others theirs ∧
        ∀ r ∈ reports marks op c, r.inside = true := by
      by_cases hop : ∃ inner, op = .prologue inner
      · obtain ⟨inner, rfl⟩ := hop
        rw [emit, Yields, prologue_of_inside _ _ hinside] at hfirst
        have hinner := hcareful.1
        rw [careful, if_pos hinside] at hinner
        rw [reports, if_pos hinside]
        exact tracks_inside inner hinside h hinner hfirst
      · have hne : ∀ inner, op ≠ .prologue inner := fun inner heq => hop ⟨inner, heq⟩
        have hkeeps := keeps_emit hne h (needs_le_of_careful hne hcareful.1) hfirst
        rw [reports_of_ne hne]
        refine ⟨hkeeps.inside.trans hinside, ?_, fun r hr => ?_⟩
        · have htracks := hkeeps.tracks
          cases happends : op.appends with
          | true => simpa [happends] using htracks
          | false => simpa [happends] using htracks
        · split at hr
          next => rw [mem_singleton.mp hr, hinside]
          next => cases hr
    obtain ⟨hinside1, h1, hall⟩ := hone
    obtain ⟨hinside', h', hall'⟩ := tracks_inside rest hinside1 h1 hcareful.2 hrest
    rw [reportsAll, hnext]
    refine ⟨hinside', ?_, fun r hr => (mem_append.mp hr).elim (hall r) (hall' r)⟩
    rw [map_append, ← append_assoc]
    exact h'
termination_by sizeOf ops

theorem side_append (inside : Bool) (reports reports' : List Report) :
    side inside (reports ++ reports') = side inside reports ++ side inside reports' := by
  rw [side, side, side, filter_append, map_append]

theorem side_of_inside {reports : List Report} (h : ∀ r ∈ reports, r.inside = true) :
    side true reports = reports.map Report.standing ∧ side false reports = [] := by
  refine ⟨?_, ?_⟩
  · rw [side, filter_eq_self.mpr fun r hr => by simp [h r hr]]
  · rw [side, filter_eq_nil_iff.mpr fun r hr => by simp [h r hr], map_nil]

/-- Operations keep the reports right, those about the prologue and those about the body. -/
theorem tracks_outside (ops : List BufferOp) {before : List Standing}
    (houtside : c.inPrologue = false) (h : c.Tracks mine c.prologue.toList (before ++ [.start]))
    (hcareful : carefulAll marks ops c = true) (hyields : (emitAll ops).Yields marks c u c') :
    c'.inPrologue = false ∧ c'.Tracks (mine ++ side false (reportsAll marks ops c))
      c'.prologue.toList (before ++ side true (reportsAll marks ops c) ++ [.start]) := by
  induction ops generalizing c mine before with
  | nil =>
    obtain ⟨-, rfl⟩ := yields_pure.mp hyields
    exact ⟨houtside, by simpa [reportsAll, side] using h⟩
  | cons op rest ih =>
    rw [emitAll] at hyields
    obtain ⟨⟨⟩, c1, hfirst, hrest⟩ := yields_bind.mp hyields
    rw [carefulAll, Bool.and_eq_true] at hcareful
    have hnext : (emit op marks c : Except Failure Unit × Code).2 = c1 := congrArg Prod.snd hfirst
    rw [hnext] at hcareful
    have hone : c1.inPrologue = false ∧ c1.Tracks (mine ++ side false (reports marks op c))
        c1.prologue.toList (before ++ side true (reports marks op c) ++ [.start]) := by
      by_cases hop : ∃ inner, op = .prologue inner
      -- The body waits while the prologue grows.
      · obtain ⟨inner, rfl⟩ := hop
        obtain ⟨d, hinner, hdepth, rfl⟩ := prologue_of_yields houtside hfirst
        have hopened : c.opened.Tracks before c.body.toList (mine ++ [c.standing]) := by
          intro hsize
          refine (h ?_).opened houtside
          simp only [Code.opened_body, Array.length_toList] at hsize ⊢
          omega
        have hcareful' := hcareful.1
        rw [careful, if_neg (by simp [houtside])] at hcareful'
        obtain ⟨hinside, htracks, hall⟩ := tracks_inside inner rfl hopened hcareful' hinner
        rw [reports, if_neg (by simp [houtside]), (side_of_inside hall).1, (side_of_inside hall).2,
          append_nil]
        refine ⟨rfl, fun hsize => (htracks ?_).closed hinside hdepth⟩
        simp only [Code.closed_prologue, Code.closed_body, Array.length_toList] at hsize ⊢
        omega
      · have hne : ∀ inner, op ≠ .prologue inner := fun inner heq => hop ⟨inner, heq⟩
        have hkeeps := keeps_emit hne h (needs_le_of_careful hne hcareful.1) hfirst
        rw [reports_of_ne hne]
        refine ⟨hkeeps.inside.trans houtside, ?_⟩
        rw [hkeeps.prologue]
        have htracks := hkeeps.tracks
        cases happends : op.appends with
        | true => simpa [happends, side, houtside] using htracks
        | false => simpa [happends, side] using htracks
    rw [reportsAll, hnext, side_append, side_append, ← append_assoc, ← append_assoc]
    exact ih hone.1 hone.2 hcareful.2 hrest

/-- The stack is as high as the buffer has reported. Whenever code that was emitted with care and
then assembled has run for a number of steps, with whatever arguments, callees and branches, it is
at the end or at an instruction that the buffer has reported to be reached, with as many operands as
were reported and needed; and no step takes anything from below them. -/
theorem heights_of_emitAll {marks : Marks} {ops : List BufferOp} {name : Text} {params : List Text}
    {c c' : Code} {chunk : Chunk}
    (hops : (emitAll ops).Yields marks (Code.create name params) () c)
    (hcareful : carefulAll marks ops (Code.create name params) = true)
    (hassemble : Emit.assemble.Yields marks c chunk c') :
    ∃ prologue body, prologue = side true (reportsAll marks ops (Code.create name params)) ∧
      body = side false (reportsAll marks ops (Code.create name params)) ∧
      prologue.length = c.prologue.size ∧ body.length = c.body.size ∧
      ∀ (call : Caller) (closure : Closure) (args : List Value) (n : Nat) (frame : Machine.Frame)
        (h h' : Heap), Machine.Reaches (Machine.step call closure chunk) n
          (Machine.startFrame chunk args) h frame h' →
        (frame.stack.length : Int) ≤ chunk.maxStack ∧
        (frame.offset = chunk.code.size ∨ ∃ (k : Nat) (i : Instr) (here : Standing),
          c.instrs[k]? = some i ∧ (prologue ++ body)[k]? = some here ∧
          frame.offset = codeOffset c.instrs k ∧ here.reachable = true ∧
          (frame.stack.length : Int) = here.depth ∧ i.op.reads i.number ≤ frame.stack.length ∧
          ∀ below, Machine.Lifts below (Machine.step call closure chunk frame)
            (Machine.step call closure chunk (frame.above below))) := by
  obtain ⟨hassembled, -⟩ := assembled_of_yields hassemble
  have hstart : (Code.create name params).inPrologue = false ∧
      (Code.create name params).Tracks [] (Code.create name params).prologue.toList
        ([] ++ [.start]) := by
    have hsound := Code.sound_create 65535 name params
    obtain ⟨locals, heq⟩ := Code.exists_create_eq name params
    rw [heq] at hsound ⊢
    exact ⟨rfl, fun _ => hsound⟩
  obtain ⟨houtside, htracks⟩ := tracks_outside ops hstart.1 hstart.2 hcareful hops
  have hsound := htracks hassembled.instrs_le
  rw [nil_append, nil_append] at hsound
  have hannotated := hsound.annotated houtside
  refine ⟨_, _, rfl, rfl, by simpa using hsound.rest.length, by simpa using hsound.body.length,
    fun call closure args n frame h h' hreaches => ?_⟩
  obtain ⟨k, here, hhere, hlive, hoffset, hstack⟩ :=
    hannotated.reaches hassembled (hannotated.stands_startFrame args) hreaches
  obtain ⟨bound, hsegment⟩ := hannotated.segment
  obtain ⟨-, hmax, -⟩ := hsegment.heights here (mem_of_getElem? hhere) hlive
  refine ⟨by rw [hstack, hassembled.maxStack]; exact hmax, ?_⟩
  cases hi : c.instrs[k]? with
  | none =>
    left
    rw [hoffset, hassembled.code_size, c.size_eq, codeOffset,
      take_of_length_le (getElem?_eq_none_iff.mp hi)]
  | some i =>
    right
    obtain ⟨locals, stack, offset⟩ := frame
    obtain rfl : offset = codeOffset c.instrs k := hoffset
    obtain ⟨hreads, hlifts, -⟩ :=
      hannotated.step hassembled call closure hi hhere hlive hstack
    refine ⟨k, i, here, hi, ?_, rfl, hlive, hstack, hreads, hlifts⟩
    have hk := (List.getElem?_eq_some_iff.mp hi).1
    have hlength := hsegment.length
    simp only [List.length_append, List.length_singleton] at hlength
    rw [← append_assoc, getElem?_append_left (by simp; omega)] at hhere
    exact hhere

/-- A loop that waits for a local to become false and returns it; the prologue sets the local. -/
def waiting : List BufferOp :=
  [.newLabel, .newLabel, .prologue [.loadConst (.bool true), .storeLocal 0], .mark 0, .loadLocal 0,
    .jumpIfFalseOrPop 1, .jump 0, .mark 1, .ret]

theorem heights_of_waiting :
    ∃ chunk c', Emit.assemble.Yields (fun _ _ => false)
        (emitAll waiting (fun _ _ => false) (Code.create "f" ["x"]) : Except Failure Unit × Code).2
        chunk c' ∧
      ∀ (call : Caller) (closure : Closure) (args : List Value) (n : Nat) (frame : Machine.Frame)
        (h h' : Heap), Machine.Reaches (Machine.step call closure chunk) n
          (Machine.startFrame chunk args) h frame h' → frame.stack.length ≤ 1 := by
  generalize hresult : (emitAll waiting (fun _ _ => false) (Code.create "f" ["x"]) :
    Except Failure Unit × Code) = outcome
  have hok : outcome.1 = .ok () := by
    rw [← hresult]
    decide +kernel
  have hassembles : ((Emit.assemble (fun _ _ => false) outcome.2 :
      Except Failure Chunk × Code).1.map Chunk.maxStack).toOption = some 1 := by
    rw [← hresult]
    decide +kernel
  obtain ⟨_, c⟩ := outcome
  cases hok
  rcases hassemble : (Emit.assemble (fun _ _ => false) c : Except Failure Chunk × Code) with
    ⟨_ | chunk, c'⟩
  · rw [hassemble] at hassembles
    cases hassembles
  rw [hassemble] at hassembles
  refine ⟨chunk, c', hassemble, fun call closure args n frame h h' hreaches => ?_⟩
  obtain ⟨prologue, body, -, -, -, -, hheights⟩ :=
    heights_of_emitAll hresult (by decide +kernel) hassemble
  have hmax : chunk.maxStack = 1 := Option.some_inj.mp hassembles
  have hle := (hheights call closure args n frame h h' hreaches).1
  omega

end BufferOp

end ExprBackend
