import ExprBackend.Proofs.StackHeight

/-! # Annotated code

A buffer knows one standing for each place in its code: how high the stack is
there, and whether the place can be reached. The standings are sound if every
instruction that can be reached finds its operands, and all the ways on from it
lead to places with the standing it leaves behind: to the next place, and to the
labels it jumps to. Where a label will be placed is not known when a jump to it
is emitted, only how high the stack has to be there.

The prologue and the body are annotated apart. Code of one is emitted while the
code of the other stays as it is.
-/

namespace ExprBackend

open List

variable {c c' : Code} {change d operand : Int} {i : Instr} {info : LabelInfo} {l : Label}
  {ls : List Label} {op : Opcode} {others : List Instr} {rise : Nat}

/-- What is known of a place in code. -/
structure Standing where
  depth : Int
  reachable : Bool
  deriving DecidableEq

variable {before mine standings theirs : List Standing} {here : Standing}

def Standing.start : Standing := ⟨0, true⟩

/-- What is known of the place where the next instruction goes. -/
def Code.standing (c : Code) : Standing := ⟨c.depth, c.reachable⟩

namespace Instr

def number (i : Instr) : Nat := decoded i.op.width i.operand

/-- The labels that an instruction can jump to, once its jump table is there. -/
def targets? (tables : List TableSpec) (i : Instr) : Option (List Label) :=
  if i.op.isJump then some [i.operand]
  else if i.op = .jumpTable then
    (tables[i.number]?).map fun t => t.default :: t.targets.filter (· ≠ Label.none)
  else some []

/-- An instruction at a place that can be reached fits the places around it. -/
structure Fits (c : Code) (i : Instr) (here : Standing) (next : Option Standing) : Prop where
  reads : (i.op.reads i.number : Int) ≤ here.depth
  falls : i.op.falls = true → next = some ⟨here.depth + i.op.change i.number, true⟩
  jumps : ∃ labels, i.targets? c.tables = some labels ∧ ∀ l ∈ labels, ∃ info,
    c.label? l = some info ∧ 0 ≤ info.depth ∧ info.depth = here.depth + i.op.jumpChange

end Instr

/-- All that is known in a buffer of labels and tables is known in another. -/
structure Code.Advances (c c' : Code) : Prop where
  labels : ∀ l info, c.label? l = some info → 0 ≤ info.depth →
    ∃ info', c'.label? l = some info' ∧ info'.depth = info.depth
  tables : c.tables <+: c'.tables
  maxDepth : c.maxDepth ≤ c'.maxDepth

theorem Instr.Fits.mono {next : Option Standing} (h : i.Fits c here next) (hc : c.Advances c') :
    i.Fits c' here next := by
  obtain ⟨labels, htargets, hlabels⟩ := h.jumps
  refine ⟨h.reads, h.falls, labels, ?_, fun l hl => ?_⟩
  · by_cases hjump : i.op.isJump = true
    · simpa only [targets?, hjump, if_true] using htargets
    · by_cases htable : i.op = .jumpTable
      · simp only [targets?, htable, if_true] at htargets ⊢
        obtain ⟨t, ht, hlabels⟩ := Option.map_eq_some_iff.mp htargets
        exact Option.map_eq_some_iff.mpr ⟨t, getElem?_of_prefix hc.tables ht, hlabels⟩
      · simpa only [targets?, hjump, htable, if_false] using htargets
  · obtain ⟨info, hinfo, hknown, hdepth⟩ := hlabels l hl
    obtain ⟨info', hinfo', heq⟩ := hc.labels l info hinfo hknown
    exact ⟨info', hinfo', heq ▸ hknown, heq.trans hdepth⟩

/-- Instructions with the standings of their places and of the place behind them. -/
structure Segment (bound : Nat) (c : Code) (instrs : List Instr) (standings : List Standing) :
    Prop where
  length : standings.length = instrs.length + 1
  first : standings.head? = some .start
  fits : ∀ (k : Nat) (i : Instr) (here : Standing), instrs[k]? = some i →
    standings[k]? = some here → here.reachable = true → i.Fits c here standings[k + 1]?
  heights : ∀ here ∈ standings, here.reachable = true →
    0 ≤ here.depth ∧ here.depth ≤ c.maxDepth ∧ here.depth ≤ bound

namespace Segment

variable {bound bound' : Nat} {instrs : List Instr} {next : Standing}

theorem mono (h : Segment bound c instrs standings) (hc : c.Advances c') (hbound : bound ≤ bound') :
    Segment bound' c' instrs standings where
  length := h.length
  first := h.first
  fits k i here hi hhere hlive := (h.fits k i here hi hhere hlive).mono hc
  heights here hmem hlive := by
    obtain ⟨hlow, hmax, hle⟩ := h.heights here hmem hlive
    exact ⟨hlow, Int.le_trans hmax hc.maxDepth, by omega⟩

/-- An instruction is added behind the others. -/
theorem push (h : Segment bound c instrs (standings ++ [here]))
    (hfits : here.reachable = true → i.Fits c here (some next))
    (hnext : next.reachable = true → 0 ≤ next.depth ∧ next.depth ≤ c.maxDepth ∧
      next.depth ≤ bound) : Segment bound c (instrs ++ [i]) (standings ++ [here] ++ [next]) := by
  have hlength : standings.length = instrs.length := by simpa using h.length
  refine ⟨by simpa using hlength, ?_, fun k j at' hj hat hlive => ?_, fun at' hmem hlive => ?_⟩
  · rw [head?_append, h.first]
    rfl
  · by_cases hk : k < instrs.length
    · rw [getElem?_append_left hk] at hj
      rw [getElem?_append_left (by simp; omega)] at hat
      rw [getElem?_append_left (by simp; omega)]
      exact h.fits k j at' hj hat hlive
    · have hlast : k = instrs.length := by
        have hlt := (List.getElem?_eq_some_iff.mp hj).1
        simp only [List.length_append, List.length_cons, List.length_nil] at hlt
        omega
      subst hlast
      obtain rfl : i = j := by simpa using hj
      obtain rfl : here = at' := by simpa [← hlength] using hat
      simpa [← hlength] using hfits hlive
  · rw [mem_append, mem_singleton] at hmem
    rcases hmem with hmem | rfl
    · exact h.heights at' hmem hlive
    · exact hnext hlive

/-- The place behind all instructions gets another standing, if it could not be reached before. -/
theorem revive (h : Segment bound c instrs (standings ++ [here])) (hdead : here.reachable = false)
    (hnext : next.reachable = true →
      0 ≤ next.depth ∧ next.depth ≤ c.maxDepth ∧ next.depth ≤ bound) :
    Segment bound c instrs (standings ++ [next]) := by
  have hlength : standings.length = instrs.length := by simpa using h.length
  refine ⟨by simpa using hlength, ?_, fun k j at' hj hat hlive => ?_, fun at' hmem hlive => ?_⟩
  · have hfirst := h.first
    cases standings with
    | nil =>
      obtain rfl : here = .start := by simpa using hfirst
      cases hdead
    | cons first rest => simpa using hfirst
  · have hk := (List.getElem?_eq_some_iff.mp hj).1
    rw [List.getElem?_append_left (by omega)] at hat
    have hfits := h.fits k j at' hj (by rw [List.getElem?_append_left (by omega), hat]) hlive
    by_cases hlast : k + 1 = standings.length
    -- Nothing leads from the last instruction to a place that cannot be reached.
    · refine ⟨hfits.reads, fun hfalls => ?_, hfits.jumps⟩
      have hhere := hfits.falls hfalls
      rw [hlast, getElem?_append_right (by omega), Nat.sub_self] at hhere
      obtain rfl : here = _ := by simpa using hhere
      cases hdead
    · rw [getElem?_append_left (by omega)] at hfits ⊢
      exact hfits
  · rw [mem_append, mem_singleton] at hmem
    rcases hmem with hmem | rfl
    · exact h.heights at' (mem_append_left _ hmem) hlive
    · exact hnext hlive

/-- Code goes on behind other code that leads to its start. -/
theorem append {instrs' : List Instr} {standings' : List Standing}
    (h : Segment bound c instrs (standings ++ [.start])) (h' : Segment bound c instrs' standings') :
    Segment bound c (instrs ++ instrs') (standings ++ standings') := by
  have hlength : standings.length = instrs.length := by simpa using h.length
  have hlength' := h'.length
  obtain ⟨rest, rfl⟩ : ∃ rest, standings' = .start :: rest := by
    cases standings' with
    | nil => cases h'.first
    | cons first rest => exact ⟨rest, by rw [Option.some_inj.mp h'.first]⟩
  refine ⟨by rw [length_append, length_append]; omega, ?_, fun k j at' hj hat hlive => ?_,
    fun at' hmem hlive => ?_⟩
  · have hfirst := h.first
    cases standings with
    | nil => rfl
    | cons first others => simpa using hfirst
  · by_cases hk : k < instrs.length
    · rw [getElem?_append_left hk] at hj
      rw [getElem?_append_left (by omega)] at hat
      have hfits := h.fits k j at' hj (by rw [getElem?_append_left (by omega), hat]) hlive
      -- The place behind the first code is the start of the second.
      have hnext : (standings ++ [Standing.start])[k + 1]? =
          (standings ++ .start :: rest)[k + 1]? := by
        by_cases hlast : k + 1 = standings.length
        · simp [hlast]
        · rw [getElem?_append_left (by omega), getElem?_append_left (by omega)]
      rw [← hnext]
      exact hfits
    · rw [getElem?_append_right (by omega)] at hj
      rw [getElem?_append_right (by omega)] at hat
      have hfits := h'.fits (k - instrs.length) j at' hj (by rw [← hlength, hat]) hlive
      rw [getElem?_append_right (by omega)]
      have hindex : k + 1 - standings.length = k - instrs.length + 1 := by omega
      rw [hindex]
      exact hfits
  · rw [mem_append] at hmem
    rcases hmem with hmem | hmem
    · exact h.heights at' (mem_append_left _ hmem) hlive
    · exact h'.heights at' hmem hlive

end Segment

/-! ## Buffers -/

namespace Code

/-- A buffer with the standings of the places in the code that is being emitted, and in the other
part of the code. Each instruction raises the stack by no more than a given number. -/
structure Sound (rise : Nat) (c : Code) (mine : List Standing) (others : List Instr)
    (theirs : List Standing) : Prop where
  body : Segment (rise * (others.length + c.body.size)) c c.body.toList (mine ++ [c.standing])
  rest : Segment (rise * (others.length + c.body.size)) c others theirs
  /-- The place of a label, which is in the body, has the standing that jumps to it rely on. -/
  placed : ∀ l info p, c.label? l = some info → info.position = some p → 0 ≤ info.depth →
    (if c.inPrologue then theirs else mine ++ [c.standing])[p]? = some ⟨info.depth, true⟩
  labels : ∀ l info, c.label? l = some info → 0 ≤ info.depth →
    info.depth ≤ c.maxDepth ∧ info.depth ≤ (rise * (others.length + c.body.size) : Nat)
  tables : c.tables.length ≤ others.length + c.body.size

variable {depth : Int}

theorem Advances.of_eq (hlabels : c'.labels = c.labels) (htables : c'.tables = c.tables)
    (hmax : c.maxDepth ≤ c'.maxDepth) : c.Advances c' :=
  ⟨fun l info hinfo _ => ⟨info, by rw [label?_of_labels_eq hlabels]; exact hinfo, rfl⟩,
    htables ▸ prefix_rfl, hmax⟩

namespace Sound

theorem length_mine (h : c.Sound rise mine others theirs) : mine.length = c.body.size := by
  simpa using h.body.length

theorem depth_bounds (h : c.Sound rise mine others theirs) (hlive : c.reachable = true) :
    0 ≤ c.depth ∧ c.depth ≤ c.maxDepth ∧
      c.depth ≤ (rise * (others.length + c.body.size) : Nat) :=
  h.body.heights c.standing (mem_append_right _ mem_cons_self) hlive

/-- What is known does not depend on anything but the code, the labels and the tables. -/
theorem of_eq (h : c.Sound rise mine others theirs) (hbody : c'.body = c.body)
    (hlabels : c'.labels = c.labels) (htables : c'.tables = c.tables)
    (hinside : c'.inPrologue = c.inPrologue) (hdepth : c'.depth = c.depth)
    (hreachable : c'.reachable = c.reachable) (hmax : c'.maxDepth = c.maxDepth) :
    c'.Sound rise mine others theirs := by
  have hstanding : c'.standing = c.standing := by rw [standing, standing, hdepth, hreachable]
  have hadvances : c.Advances c' := .of_eq hlabels htables (Int.le_of_eq hmax.symm)
  refine ⟨?_, ?_, fun l info p hinfo => ?_, fun l info hinfo => ?_, ?_⟩
  · rw [hbody, hstanding]
    exact h.body.mono hadvances (Nat.le_refl _)
  · rw [hbody]
    exact h.rest.mono hadvances (Nat.le_refl _)
  · rw [label?_of_labels_eq hlabels] at hinfo
    rw [hinside, hstanding]
    exact h.placed l info p hinfo
  · rw [label?_of_labels_eq hlabels] at hinfo
    rw [hmax, hbody]
    exact h.labels l info hinfo
  · rw [htables, hbody]
    exact h.tables

/-- More becomes known of labels that are not placed. -/
theorem relabel (h : c.Sound rise mine others theirs) {labels : Array LabelInfo}
    (hkept : ∀ l info, c.label? l = some info → 0 ≤ info.depth →
      ∃ info', { c with labels }.label? l = some info' ∧ info'.depth = info.depth)
    (hplaced : ∀ l info p, { c with labels }.label? l = some info → info.position = some p →
      0 ≤ info.depth → c.label? l = some info)
    (hbounds : ∀ (l : Label) (info : LabelInfo), { c with labels }.label? l = some info →
      0 ≤ info.depth → info.depth ≤ c.maxDepth ∧
      info.depth ≤ (rise * (others.length + c.body.size) : Nat)) :
    { c with labels }.Sound rise mine others theirs := by
  have hadvances : c.Advances { c with labels } := ⟨hkept, prefix_rfl, Int.le_refl _⟩
  exact ⟨h.body.mono hadvances (Nat.le_refl _), h.rest.mono hadvances (Nat.le_refl _),
    fun l info p hinfo hp hknown => h.placed l info p (hplaced l info p hinfo hp hknown) hp hknown,
    hbounds, h.tables⟩

theorem labelled (h : c.Sound rise mine others theirs) :
    c.labelled.Sound rise mine others theirs := by
  -- The new label is neither placed nor jumped to.
  have hold : ∀ l info, c.labelled.label? l = some info → 0 ≤ info.depth →
      c.label? l = some info := by
    intro l info hinfo hknown
    rcases label?_of_labelled hinfo with hold | ⟨-, rfl⟩
    · exact hold
    · cases hknown
  exact h.relabel (fun l info hinfo _ => ⟨info, label?_labelled hinfo, rfl⟩)
    (fun l info p hinfo _ hknown => hold l info hinfo hknown)
    fun l info hinfo hknown => h.labels l info (hold l info hinfo hknown) hknown

theorem withLabel (h : c.Sound rise mine others theirs) {info' : LabelInfo}
    (hinfo : c.label? l = some info) (hkept : 0 ≤ info.depth → info'.depth = info.depth)
    (hplaced : 0 ≤ info'.depth → info'.position = none)
    (hbounds : 0 ≤ info'.depth → info'.depth ≤ c.maxDepth ∧
      info'.depth ≤ (rise * (others.length + c.body.size) : Nat)) :
    (c.withLabel l info').Sound rise mine others theirs := by
  have hsame : (c.withLabel l info').label? l = some info' := label?_set_same rfl hinfo
  have hother : ∀ l', l' ≠ l → (c.withLabel l info').label? l' = c.label? l' := fun l' hne =>
    label?_set_other rfl hne (lt_of_label? hinfo).1
  refine h.relabel (fun l' old hold hknown => ?_) (fun l' new p hnew hp hknown => ?_)
    fun l' new hnew hknown => ?_
  · by_cases hl : l' = l
    · subst hl
      obtain rfl : info = old := by simpa [hinfo] using hold
      exact ⟨info', hsame, hkept hknown⟩
    · exact ⟨old, (hother l' hl).trans hold, rfl⟩
  · by_cases hl : l' = l
    · subst hl
      obtain rfl : info' = new := by simpa using hsame.symm.trans hnew
      rw [hplaced hknown] at hp
      cases hp
    · rw [← hother l' hl]
      exact hnew
  · by_cases hl : l' = l
    · subst hl
      obtain rfl : info' = new := by simpa using hsame.symm.trans hnew
      exact hbounds hknown
    · refine h.labels l' new ?_ hknown
      rw [← hother l' hl]
      exact hnew

/-- A jump from a place that can be reached makes the height at its label known. -/
theorem branches (h : c.Sound rise mine others theirs)
    (hd : c.reachable = true → 0 ≤ d ∧ d ≤ c.maxDepth ∧
      d ≤ (rise * (others.length + c.body.size) : Nat)) (hbranch : c.Branches l d c') :
    c'.Sound rise mine others theirs := by
  cases hbranch with
  | dead => exact h
  | backward => exact h
  | @forward info hlive hinfo hposition hdepth =>
    exact h.withLabel hinfo (fun hknown => (hdepth hknown).symm) (fun _ => hposition)
      fun _ => (hd hlive).2

end Sound

theorem Branches.label (h : c.Branches l d c') (hlive : c.reachable = true) :
    ∃ info, c'.label? l = some info ∧ info.depth = d := by
  cases h with
  | dead hdead =>
    rw [hlive] at hdead
    cases hdead
  | @backward info _ hinfo _ _ hdepth => exact ⟨info, hinfo, hdepth⟩
  | @forward info _ hinfo => exact ⟨_, label?_set_same rfl hinfo, rfl⟩

theorem Advances.trans {c'' : Code} (h : c.Advances c') (h' : c'.Advances c'') :
    c.Advances c'' := by
  refine ⟨fun l info hinfo hknown => ?_, h.tables.trans h'.tables,
    Int.le_trans h.maxDepth h'.maxDepth⟩
  obtain ⟨info1, hinfo1, hdepth1⟩ := h.labels l info hinfo hknown
  obtain ⟨info2, hinfo2, hdepth2⟩ := h'.labels l info1 hinfo1 (hdepth1 ▸ hknown)
  exact ⟨info2, hinfo2, hdepth2.trans hdepth1⟩

/-- A height that is known at a label is there to stay when a jump is recorded. -/
theorem Branches.advances (h : c.Branches l d c') : c.Advances c' := by
  cases h with
  | dead | backward =>
    exact ⟨fun l info hinfo _ => ⟨info, hinfo, rfl⟩, prefix_rfl, Int.le_refl _⟩
  | @forward info _ hinfo _ hdepth =>
    refine ⟨fun l' old hold hknown => ?_, prefix_rfl, Int.le_refl _⟩
    by_cases hl : l' = l
    · subst hl
      obtain rfl : info = old := by simpa [hinfo] using hold
      exact ⟨_, label?_set_same rfl hinfo, (hdepth hknown).symm⟩
    · exact ⟨old, (label?_set_other rfl hl (lt_of_label? hinfo).1).trans hold, rfl⟩

/-- Recording a jump changes nothing but labels. -/
theorem Branches.eq_labels (h : c.Branches l d c') : c' = { c with labels := c'.labels } := by
  cases h <;> rfl

/-- An instruction is added that fits where it is. -/
theorem Sound.push (h : c.Sound rise mine others theirs) (hbody : c'.body = c.body.push i)
    (hlabels : c'.labels = c.labels) (htables : c.tables <+: c'.tables)
    (hcount : c'.tables.length ≤ c.tables.length + 1) (hinside : c'.inPrologue = c.inPrologue)
    (hmax : max c.maxDepth c'.depth ≤ c'.maxDepth)
    (hfits : c.reachable = true → i.Fits c' c.standing (some c'.standing))
    (hlive : c'.reachable = true → c.reachable = true ∧ 0 ≤ c'.depth ∧ c'.depth ≤ c.depth + rise) :
    c'.Sound rise (mine ++ [c.standing]) others theirs := by
  have hadvances : c.Advances c' :=
    ⟨(Advances.of_eq hlabels rfl (Int.le_refl _) : c.Advances
      { c with labels := c'.labels }).labels, htables, by omega⟩
  have hsize : c'.body.size = c.body.size + 1 := by rw [hbody, Array.size_push]
  have hbound : rise * (others.length + c'.body.size) =
      rise * (others.length + c.body.size) + rise := by
    rw [hsize, ← Nat.add_assoc, Nat.mul_add_one]
  refine ⟨?_, ?_, fun l info p hinfo hp hknown => ?_, fun l info hinfo hknown => ?_, ?_⟩
  · rw [hbound, hbody, Array.toList_push]
    refine (h.body.mono hadvances (by omega)).push hfits fun hc' => ?_
    obtain ⟨hc, hlow, hhigh⟩ := hlive hc'
    obtain ⟨-, -, hdepth⟩ := h.depth_bounds hc
    exact ⟨hlow, by simp only [standing]; omega, by simp only [standing]; omega⟩
  · exact h.rest.mono hadvances (by omega)
  · rw [label?_of_labels_eq hlabels] at hinfo
    have hplaced := h.placed l info p hinfo hp hknown
    rw [hinside]
    by_cases hin : c.inPrologue = true
    · rw [if_pos hin] at hplaced ⊢
      exact hplaced
    · rw [if_neg hin] at hplaced ⊢
      rw [List.getElem?_append_left (List.getElem?_eq_some_iff.mp hplaced).1]
      exact hplaced
  · rw [label?_of_labels_eq hlabels] at hinfo
    obtain ⟨hle, hle'⟩ := h.labels l info hinfo hknown
    exact ⟨by omega, by omega⟩
  · have := h.tables
    omega

theorem Sound.height_add (h : c.Sound rise mine others theirs) (hrise : rise ≤ 65536)
    (hsize : others.length + c.body.size ≤ 65535) (hlive : c.reachable = true)
    (hlow : 0 ≤ c.depth + change) (hhigh : change ≤ rise) :
    height (c.depth + change) = c.depth + change := by
  obtain ⟨-, -, hdepth⟩ := h.depth_bounds hlive
  have hroom : rise * (others.length + c.body.size) ≤ 65536 * 65535 := Nat.mul_le_mul hrise hsize
  exact height_eq (by omega)

/-- What has to be known before an instruction is added that can be reached. -/
structure Admits (rise : Nat) (c : Code) (op : Opcode) (operand change : Int) : Prop where
  reads : (op.reads (decoded op.width operand) : Int) ≤ c.depth
  effect : change = op.change (decoded op.width operand)
  limit : change ≤ rise
  jumps : ∃ labels, (⟨op, operand⟩ : Instr).targets? c.tables = some labels ∧ ∀ l ∈ labels,
    ∃ info, c.label? l = some info ∧ 0 ≤ info.depth ∧ info.depth = c.depth + op.jumpChange

/-- An instruction that is no jump is admitted where the stack is high enough. -/
theorem admits_plain (hjump : op.isJump = false) (htable : op ≠ .jumpTable)
    (hreads : (op.reads (decoded op.width operand) : Int) ≤ c.depth)
    (hchange : change = op.change (decoded op.width operand)) (hrise : change ≤ rise) :
    c.Admits rise op operand change :=
  ⟨hreads, hchange, hrise, [], by simp [Instr.targets?, hjump, htable],
    fun l hl => absurd hl not_mem_nil⟩

namespace Sound

theorem height_admitted (h : c.Sound rise mine others theirs) (hrise : rise ≤ 65536)
    (hsize : others.length + c.body.size ≤ 65535) (hlive : c.reachable = true)
    (hadmits : c.Admits rise op operand change) :
    0 ≤ c.depth + change ∧ height (c.depth + change) = c.depth + change := by
  have hlow : 0 ≤ c.depth + change := by
    have hnonneg := op.reads_add_change (decoded op.width operand)
    have hreads := hadmits.reads
    rw [hadmits.effect]
    omega
  exact ⟨hlow, h.height_add hrise hsize hlive hlow hadmits.limit⟩

theorem appended (h : c.Sound rise mine others theirs) (hrise : rise ≤ 65536)
    (hsize : others.length + c.body.size ≤ 65535)
    (hadmits : c.reachable = true → c.Admits rise op operand change) :
    (c.appended op operand change).Sound rise (mine ++ [c.standing]) others theirs := by
  refine h.push (i := ⟨op, operand⟩) rfl rfl prefix_rfl (Nat.le_succ _) rfl (Int.le_refl _)
    (fun hlive => ?_) fun hlive => ⟨hlive, ?_⟩
  · have hadmitted := hadmits hlive
    obtain ⟨-, hheight⟩ := h.height_admitted hrise hsize hlive hadmitted
    refine ⟨hadmitted.reads, fun _ => ?_, hadmitted.jumps⟩
    rw [standing, appended_depth, appended_reachable, hheight, hlive, hadmitted.effect]
    rfl
  · have hadmitted := hadmits hlive
    obtain ⟨hlow, hheight⟩ := h.height_admitted hrise hsize hlive hadmitted
    have := hadmitted.limit
    rw [appended_depth, hheight]
    exact ⟨hlow, by omega⟩

/-- An instruction that does not lead to the one behind it ends what can be reached. -/
theorem appended_ended (h : c.Sound rise mine others theirs) (hfalls : op.falls = false)
    (hadmits : c.reachable = true → c.Admits rise op operand change) :
    (c.appended op operand change).ended.Sound rise (mine ++ [c.standing]) others theirs := by
  refine h.push (i := ⟨op, operand⟩) rfl rfl prefix_rfl (Nat.le_succ _) rfl (Int.le_refl _)
    (fun hlive => ?_) fun hlive => absurd hlive Bool.false_ne_true
  have hadmitted := hadmits hlive
  refine ⟨hadmitted.reads, fun hfalls' => ?_, hadmitted.jumps⟩
  rw [hfalls] at hfalls'
  cases hfalls'

/-- A label is placed. The place can be reached from jumps to the label. -/
theorem marked (h : c.Sound rise mine others theirs) (houtside : c.inPrologue = false)
    (hinfo : c.label? l = some info)
    (hdepth : c.reachable = true → 0 ≤ info.depth → info.depth = c.depth) :
    (c.marked l info).Sound rise mine others theirs := by
  have hlength := h.length_mine
  have hsame : (c.marked l info).label? l =
      some ⟨some c.body.size, if c.reachable then c.depth else info.depth⟩ :=
    label?_set_same rfl hinfo
  have hother : ∀ l', l' ≠ l → (c.marked l info).label? l' = c.label? l' := fun l' hne =>
    label?_set_other rfl hne (lt_of_label? hinfo).1
  -- The height at the label is what it was, or becomes known.
  have hknown : ∀ l' old, c.label? l' = some old → 0 ≤ old.depth →
      ∃ new, (c.marked l info).label? l' = some new ∧ new.depth = old.depth := by
    intro l' old hold hnonneg
    by_cases hl : l' = l
    · subst hl
      obtain rfl : info = old := by simpa [hinfo] using hold
      refine ⟨_, hsame, ?_⟩
      split
      next hlive => exact (hdepth hlive hnonneg).symm
      next => rfl
    · exact ⟨old, (hother l' hl).trans hold, rfl⟩
  have hadvances : c.Advances (c.marked l info) := ⟨hknown, prefix_rfl, Int.le_refl _⟩
  have hstanding : (c.marked l info).standing =
      if c.reachable = false ∧ 0 ≤ info.depth then ⟨info.depth, true⟩ else c.standing := by
    rw [standing, standing, marked_depth, marked_reachable]
    cases c.reachable with
    | true => simp
    | false => by_cases hnonneg : 0 ≤ info.depth <;> simp [hnonneg]
  have hbody : Segment (rise * (others.length + c.body.size)) (c.marked l info) c.body.toList
      (mine ++ [(c.marked l info).standing]) := by
    rw [hstanding]
    split
    next hrevived =>
      obtain ⟨hle, hle'⟩ := h.labels l info hinfo hrevived.2
      exact (h.body.mono hadvances (Nat.le_refl _)).revive hrevived.1 fun _ =>
        ⟨hrevived.2, hle, hle'⟩
    next => exact h.body.mono hadvances (Nat.le_refl _)
  refine ⟨hbody, h.rest.mono hadvances (Nat.le_refl _), fun l' new p hnew hp hnonneg => ?_,
    fun l' new hnew hnonneg => ?_, h.tables⟩
  · rw [marked_inPrologue, houtside, if_neg Bool.false_ne_true]
    by_cases hl : l' = l
    · subst hl
      obtain rfl := Option.some_inj.mp (hsame.symm.trans hnew)
      cases hp
      rw [← hlength, getElem?_concat_length, hstanding]
      cases hlive : c.reachable with
      | true => simp [standing, hlive]
      | false =>
        simp only [hlive, Bool.false_eq_true, if_false] at hnonneg ⊢
        simp [hnonneg]
    · rw [hother l' hl] at hnew
      have hplaced := h.placed l' new p hnew hp hnonneg
      rw [houtside, if_neg Bool.false_ne_true] at hplaced
      by_cases hlast : p = mine.length
      -- A label that is placed here already was jumped to, so the place could be reached.
      · subst hlast
        rw [getElem?_concat_length] at hplaced ⊢
        have hlive : c.reachable = true := congrArg Standing.reachable (Option.some_inj.mp hplaced)
        rw [hstanding, if_neg (by simp [hlive])]
        exact hplaced
      · have hp' := (List.getElem?_eq_some_iff.mp hplaced).1
        rw [List.length_append, List.length_singleton] at hp'
        rw [List.getElem?_append_left (by omega)] at hplaced ⊢
        exact hplaced
  · by_cases hl : l' = l
    · subst hl
      obtain rfl := Option.some_inj.mp (hsame.symm.trans hnew)
      cases hlive : c.reachable with
      | true =>
        simp only [if_true]
        exact (h.depth_bounds hlive).2
      | false =>
        simp only [hlive, Bool.false_eq_true, if_false] at hnonneg ⊢
        exact h.labels l' info hinfo hnonneg
    · rw [hother l' hl] at hnew
      exact h.labels l' new hnew hnonneg

/-- The prologue is opened, and the body stays as it is. -/
theorem opened (h : c.Sound rise mine c.prologue.toList (before ++ [.start]))
    (houtside : c.inPrologue = false) :
    c.opened.Sound rise before c.body.toList (mine ++ [c.standing]) := by
  have hadvances : c.Advances c.opened := .of_eq rfl rfl (Int.le_refl _)
  have hroom : rise * (c.body.toList.length + c.opened.body.size) =
      rise * (c.prologue.toList.length + c.body.size) := by
    simp [Nat.add_comm]
  refine ⟨?_, ?_, fun l info p hinfo hp hknown => ?_, fun l info hinfo hknown => ?_, ?_⟩
  · rw [hroom]
    exact h.rest.mono hadvances (Nat.le_refl _)
  · rw [hroom]
    exact h.body.mono hadvances (Nat.le_refl _)
  · have hplaced := h.placed l info p hinfo hp hknown
    rw [houtside, if_neg Bool.false_ne_true] at hplaced
    exact hplaced
  · rw [hroom]
    exact h.labels l info hinfo hknown
  · have := h.tables
    simp only [opened_body, opened_tables, Array.length_toList] at this ⊢
    omega

/-- The prologue is closed: it has to leave the stack as it was. -/
theorem closed {inner : Code} (h : inner.Sound rise before c.body.toList (mine ++ [c.standing]))
    (hinside : inner.inPrologue = true) (hdepth : inner.depth = 0) :
    (c.closed inner).Sound rise mine (c.closed inner).prologue.toList (before ++ [.start]) := by
  have hadvances : inner.Advances (c.closed inner) := .of_eq rfl rfl (Int.le_refl _)
  have hroom : rise * ((c.closed inner).prologue.toList.length + (c.closed inner).body.size) =
      rise * (c.body.toList.length + inner.body.size) := by
    simp [Nat.add_comm]
  refine ⟨?_, ?_, fun l info p hinfo hp hknown => ?_, fun l info hinfo hknown => ?_, ?_⟩
  · rw [hroom]
    exact h.rest.mono hadvances (Nat.le_refl _)
  · rw [hroom]
    have hbody := h.body.mono hadvances (Nat.le_refl _)
    cases hlive : inner.reachable with
    | true =>
      have hstanding : inner.standing = .start := by
        rw [standing, hdepth, hlive]
        rfl
      rw [hstanding] at hbody
      exact hbody
    | false =>
      obtain ⟨hlow, hmax, hle⟩ := hbody.heights .start
        (mem_of_mem_head? (hbody.first ▸ rfl)) rfl
      exact hbody.revive hlive fun _ => ⟨hlow, hmax, hle⟩
  · have hplaced := h.placed l info p hinfo hp hknown
    rw [hinside, if_pos rfl] at hplaced
    exact hplaced
  · rw [hroom]
    exact h.labels l info hinfo hknown
  · have := h.tables
    simp only [closed_body, closed_prologue, closed_tables, Array.length_toList] at this ⊢
    omega

end Sound

/-! ## Jumps -/

/-- A jump is recorded in the same way in every buffer with the same labels. -/
theorem Branches.transport {d : Code} (h : c.Branches l depth c') (hlabels : d.labels = c.labels)
    (hreachable : d.reachable = c.reachable) :
    d.Branches l depth { d with labels := c'.labels } := by
  have hself : { d with labels := c.labels } = d := by rw [← hlabels]
  cases h with
  | dead hdead =>
    rw [hself]
    exact .dead (hreachable.trans hdead)
  | backward hlive hinfo hposition hknown hdepth =>
    rw [hself]
    exact .backward (hreachable.trans hlive) ((label?_of_labels_eq hlabels l).trans hinfo) hposition
      hknown hdepth
  | forward hlive hinfo hposition hdepth =>
    rw [withLabel_labels, ← hlabels]
    exact .forward (hreachable.trans hlive) ((label?_of_labels_eq hlabels l).trans hinfo) hposition
      hdepth

theorem BranchesAll.transport {d : Code} (h : BranchesAll depth c ls c')
    (hlabels : d.labels = c.labels) (hreachable : d.reachable = c.reachable) :
    BranchesAll depth d ls { d with labels := c'.labels } := by
  induction h generalizing d with
  | nil =>
    rw [← hlabels]
    exact .nil
  | skip _ ih => exact .skip (ih hlabels hreachable)
  | cons hl hbranch _ ih =>
    refine .cons hl (hbranch.transport hlabels hreachable) (ih rfl ?_)
    rw [hbranch.eq_labels]
    exact hreachable

theorem BranchesAll.eq_labels (h : BranchesAll d c ls c') :
    c' = { c with labels := c'.labels } := by
  induction h with
  | nil => rfl
  | skip _ ih => exact ih
  | cons _ hbranch _ ih =>
    rw [hbranch.eq_labels] at ih
    exact ih

namespace Sound

variable {marks : Marks} {u : Unit}

theorem jump (h : c.Sound rise mine others theirs) (hyields : (Emit.jump l).Yields marks c u c') :
    c'.Sound rise (mine ++ [c.standing]) others theirs := by
  obtain ⟨c1, hbranch, rfl⟩ := Emit.jump_of_yields hyields
  have h1 := h.branches h.depth_bounds hbranch
  have hlabel := hbranch.label
  rw [hbranch.eq_labels] at h1 hlabel ⊢
  refine h1.appended_ended rfl fun hlive => ?_
  obtain ⟨info, hinfo, hdepth⟩ := hlabel hlive
  obtain ⟨hlow, -⟩ := h.depth_bounds hlive
  refine ⟨hlow, rfl, Int.natCast_nonneg rise, [l], rfl, fun l' hl' => ?_⟩
  obtain rfl := mem_singleton.mp hl'
  exact ⟨info, hinfo, hdepth ▸ hlow, by rw [hdepth]; exact (Int.add_zero _).symm⟩

/-- A conditional jump that pops the value it looks at. -/
theorem popJump (h : c.Sound rise mine others theirs) (hrise : rise ≤ 65536)
    (hsize : others.length + c.body.size ≤ 65535) (hop : op = .jumpIfFalse ∨ op = .jumpIfTrue)
    (hreads : c.reachable = true → 1 ≤ c.depth)
    (hyields : (Emit.popJump op l).Yields marks c u c') :
    c'.Sound rise (mine ++ [c.standing]) others theirs := by
  have hbranch := Emit.popJump_of_yields hyields
  have hchange : ∀ operand, op.change operand = -1 ∧ op.reads operand = 1 ∧ op.isJump = true ∧
      op.jumpChange = -1 := by
    rintro operand
    rcases hop with rfl | rfl <;> exact ⟨rfl, rfl, rfl, rfl⟩
  have hheight : c.reachable = true → height (c.depth - 1) = c.depth - 1 := fun hlive =>
    h.height_add hrise hsize hlive (by have := hreads hlive; omega) (by omega)
  -- The jump is recorded behind the instruction, and could as well be recorded before.
  have hbefore := hbranch.transport (d := c) rfl rfl
  have hlabel := hbefore.label
  have h1 := h.branches (fun hlive => by
    have := h.depth_bounds hlive
    have := hreads hlive
    rw [hheight hlive]
    omega) hbefore
  have heq : c' = { c with labels := c'.labels }.appended op l (-1) := by
    rw [hbranch.eq_labels]
    rfl
  rw [heq]
  refine h1.appended hrise hsize fun hlive => ?_
  obtain ⟨info, hinfo, hdepth⟩ := hlabel hlive
  have hlow := hreads hlive
  rw [hheight hlive] at hdepth
  obtain ⟨heffect, hread, hjump, hafter⟩ := hchange (decoded op.width l)
  refine ⟨by rw [hread]; exact hlow, heffect.symm, by omega, [l], by simp [Instr.targets?, hjump],
    fun l' hl' => ?_⟩
  obtain rfl := mem_singleton.mp hl'
  refine ⟨info, hinfo, by omega, ?_⟩
  rw [hdepth, hafter]
  rfl

/-- A conditional jump that pops the value it looks at only if it does not jump. -/
theorem jumpOrPop (h : c.Sound rise mine others theirs) (hrise : rise ≤ 65536)
    (hsize : others.length + c.body.size ≤ 65535)
    (hop : op = .jumpIfFalseOrPop ∨ op = .jumpIfTrueOrPop)
    (hreads : c.reachable = true → 1 ≤ c.depth)
    (hyields : (Emit.jumpOrPop op l).Yields marks c u c') :
    c'.Sound rise (mine ++ [c.standing]) others theirs := by
  obtain ⟨c1, hbranch, rfl⟩ := Emit.jumpOrPop_of_yields hyields
  have hchange : ∀ operand, op.change operand = -1 ∧ op.reads operand = 1 ∧ op.isJump = true ∧
      op.jumpChange = 0 := by
    rintro operand
    rcases hop with rfl | rfl <;> exact ⟨rfl, rfl, rfl, rfl⟩
  have h1 := h.branches h.depth_bounds hbranch
  have hlabel := hbranch.label
  rw [hbranch.eq_labels] at h1 hlabel ⊢
  refine h1.appended hrise hsize fun hlive => ?_
  obtain ⟨info, hinfo, hdepth⟩ := hlabel hlive
  have hlow := hreads hlive
  obtain ⟨heffect, hread, hjump, hafter⟩ := hchange (decoded op.width l)
  refine ⟨by rw [hread]; exact hlow, heffect.symm, by omega, [l], by simp [Instr.targets?, hjump],
    fun l' hl' => ?_⟩
  obtain rfl := mem_singleton.mp hl'
  exact ⟨info, hinfo, by omega, by rw [hdepth, hafter, Int.add_zero]⟩

/-- Jumps to several labels make the height at each of them known. -/
theorem branchesAll (h : c.Sound rise mine others theirs)
    (hd : c.reachable = true → 0 ≤ d ∧ d ≤ c.maxDepth ∧
      d ≤ (rise * (others.length + c.body.size) : Nat)) (hbranches : BranchesAll d c ls c') :
    c'.Sound rise mine others theirs ∧ c.Advances c' ∧ (c.reachable = true → ∀ l ∈ ls,
      l ≠ Label.none → ∃ info, c'.label? l = some info ∧ info.depth = d) := by
  induction hbranches with
  | nil =>
    exact ⟨h, ⟨fun l info hinfo _ => ⟨info, hinfo, rfl⟩, prefix_rfl, Int.le_refl _⟩,
      fun _ l hl => absurd hl not_mem_nil⟩
  | skip _ ih =>
    obtain ⟨hsound, hadvances, hlabels⟩ := ih h hd
    refine ⟨hsound, hadvances, fun hlive l hl hne => ?_⟩
    rcases mem_cons.mp hl with rfl | hl
    · exact absurd rfl hne
    · exact hlabels hlive l hl hne
  | @cons c c1 c' l rest hl hbranch hrest ih =>
    have h1 := h.branches hd hbranch
    have hfirst : c.Advances c1 := hbranch.advances
    have hsame := hbranch.eq_labels
    obtain ⟨hsound, hadvances, hlabels⟩ := ih h1 (by rw [hsame]; exact hd)
    refine ⟨hsound, hfirst.trans hadvances, fun hlive l' hl' hne => ?_⟩
    rcases mem_cons.mp hl' with rfl | hl'
    · obtain ⟨info, hinfo, hdepth⟩ := hbranch.label hlive
      obtain ⟨info', hinfo', hdepth'⟩ := hadvances.labels l' info hinfo (by
        rw [hdepth]
        exact (hd hlive).1)
      exact ⟨info', hinfo', hdepth'.trans hdepth⟩
    · exact hlabels (by rw [hsame]; exact hlive) l' hl' hne

/-- A jump table leads to all its labels. -/
theorem jumpTable (h : c.Sound rise mine others theirs) (hrise : rise ≤ 65536)
    (hsize : others.length + c.body.size ≤ 65535) (hreads : c.reachable = true → 1 ≤ c.depth)
    (hyields : (Emit.jumpTable ls l).Yields marks c u c') :
    c'.Sound rise (mine ++ [c.standing]) others theirs := by
  obtain ⟨-, c1, c2, hall, hbranch, rfl⟩ := Emit.jumpTable_of_yields hyields
  have hheight : c.reachable = true → height (c.depth - 1) = c.depth - 1 := fun hlive =>
    h.height_add hrise hsize hlive (by have := hreads hlive; omega) (by omega)
  have hbounds : c.reachable = true → 0 ≤ height (c.depth - 1) ∧
      height (c.depth - 1) ≤ c.maxDepth ∧
      height (c.depth - 1) ≤ (rise * (others.length + c.body.size) : Nat) := by
    intro hlive
    have := h.depth_bounds hlive
    have := hreads hlive
    rw [hheight hlive]
    omega
  have hdepth1 : c1.depth = height (c.depth - 1) := by
    rw [hall.eq_labels]
    rfl
  have hreachable1 : c1.reachable = c.reachable := by
    rw [hall.eq_labels]
    rfl
  rw [hdepth1] at hbranch
  have hcode : c2 = { c.appended .jumpTable c.tables.length (-1) with labels := c2.labels } := by
    rw [hbranch.eq_labels, hall.eq_labels]
  -- The jumps are recorded behind the instruction, and could as well be recorded before.
  have hall' := hall.transport (d := c) rfl rfl
  have hbranch' := hbranch.transport (d := { c with labels := c1.labels }) rfl hreachable1.symm
  obtain ⟨h1, -, hlabels⟩ := h.branchesAll hbounds hall'
  have h2 := h1.branches hbounds hbranch'
  have hindex : (⟨.jumpTable, c.tables.length⟩ : Instr).number = c.tables.length :=
    decoded_word rfl (Nat.le_trans h.tables hsize)
  rw [hcode]
  refine h2.push (i := ⟨.jumpTable, c.tables.length⟩) rfl rfl (prefix_append _ _)
    (by simp) rfl (Int.le_refl _) (fun hlive => ?_) fun hlive => absurd hlive Bool.false_ne_true
  have hlow := hreads hlive
  refine ⟨hlow, fun hfalls => absurd hfalls Bool.false_ne_true,
    l :: ls.filter (· ≠ Label.none), ?_, fun l' hl' => ?_⟩
  · simp [Instr.targets?, Opcode.isJump, hindex]
  · obtain ⟨info, hinfo, hdepth⟩ : ∃ info, { c with labels := c2.labels }.label? l' = some info ∧
        info.depth = height (c.depth - 1) := by
      rcases mem_cons.mp hl' with rfl | hl'
      · exact hbranch'.label hlive
      · obtain ⟨hmem, hne⟩ := mem_filter.mp hl'
        obtain ⟨info, hinfo, hdepth⟩ := hlabels hlive l' hmem (by simpa using hne)
        obtain ⟨info', hinfo', hdepth'⟩ := hbranch'.advances.labels l' info hinfo (by
          rw [hdepth]
          exact (hbounds hlive).1)
        exact ⟨info', hinfo', hdepth'.trans hdepth⟩
    rw [hheight hlive] at hdepth
    exact ⟨info, hinfo, by omega, hdepth⟩

end Sound

end Code

/-! ## Fresh buffers -/

theorem Code.sound_create (rise : Nat) (name : Text) (params : List Text) :
    (create name params).Sound rise [] [] [.start] := by
  obtain ⟨locals, heq⟩ := exists_create_eq name params
  rw [heq]
  have hnone : ∀ l, ({ name, paramCount := params.length, locals } : Code).label? l = none := by
    intro l
    simp [label?]
  have hstart : Segment 0 { name, paramCount := params.length, locals } [] [.start] := by
    refine ⟨rfl, rfl, fun k i here hi => by simp at hi, fun here hmem _ => ?_⟩
    obtain rfl := mem_singleton.mp hmem
    exact ⟨Int.le_refl _, Int.le_refl _, Int.le_refl _⟩
  refine ⟨hstart, hstart, fun l info p hinfo => ?_, fun l info hinfo => ?_, Nat.zero_le _⟩
  · rw [hnone] at hinfo
    cases hinfo
  · rw [hnone] at hinfo
    cases hinfo

/-! ## Runs of annotated code -/

/-- All the code of a buffer with the standings of its places. -/
structure Code.Annotated (c : Code) (standings : List Standing) : Prop where
  segment : ∃ bound, Segment bound c c.instrs standings
  placed : ∀ l info p, c.label? l = some info → info.position = some p → 0 ≤ info.depth →
    standings[c.prologue.size + p]? = some ⟨info.depth, true⟩

/-- The prologue comes before the body. -/
theorem Code.Sound.annotated (h : c.Sound rise mine c.prologue.toList (before ++ [.start]))
    (houtside : c.inPrologue = false) : c.Annotated (before ++ (mine ++ [c.standing])) := by
  refine ⟨⟨_, h.rest.append h.body⟩, fun l info p hinfo hp hknown => ?_⟩
  have hplaced := h.placed l info p hinfo hp hknown
  have hlength : before.length = c.prologue.size := by simpa using h.rest.length
  rw [houtside, if_neg Bool.false_ne_true] at hplaced
  rw [← hlength, getElem?_append_right (Nat.le_add_right _ _), Nat.add_sub_cancel_left]
  exact hplaced

/-- A frame is at a place that can be reached, with a stack as high as it is known to be there. -/
def Machine.Frame.Stands (c : Code) (standings : List Standing) (frame : Machine.Frame) : Prop :=
  ∃ k here, standings[k]? = some here ∧ here.reachable = true ∧
    frame.offset = codeOffset c.instrs k ∧ (frame.stack.length : Int) = here.depth

namespace Code.Annotated

open Machine

variable {chunk : Chunk} {call : Caller} {closure : Closure}

/-- A known label has a place that can be reached. -/
theorem target (h : c.Annotated standings) (hinfo : c.label? l = some info)
    (hknown : 0 ≤ info.depth) {offset : Int} (hoffset : c.labelOffset c.offsets l = .ok offset) :
    ∃ k, offset = codeOffset c.instrs k ∧ standings[k]? = some ⟨info.depth, true⟩ := by
  rw [labelOffset, hinfo] at hoffset
  cases hp : info.position with
  | none =>
    simp only [hp] at hoffset
    cases hoffset
  | some p =>
    have hplaced := h.placed l info p hinfo hp hknown
    obtain ⟨bound, hsegment⟩ := h.segment
    have hle : p ≤ c.body.size := by
      have hlt := (List.getElem?_eq_some_iff.mp hplaced).1
      rw [hsegment.length] at hlt
      simp only [instrs, List.length_append, Array.length_toList] at hlt
      omega
    simp only [hp, c.offsets_getElem? hle, Option.getD_some] at hoffset
    cases hoffset
    exact ⟨c.prologue.size + p, rfl, hplaced⟩

/-- At the place of an instruction the machine has the operands for it, and goes on to places that
are known. -/
theorem step (h : c.Annotated standings) (hassembled : Assembled c chunk) (call : Caller)
    (closure : Closure) {k : Nat} (hi : c.instrs[k]? = some i) (hhere : standings[k]? = some here)
    (hlive : here.reachable = true) {locals : Array Value} {stack : List Value}
    (hstack : (stack.length : Int) = here.depth) : i.op.reads i.number ≤ stack.length ∧
      (∀ below, Lifts below (Machine.step call closure chunk ⟨locals, stack, codeOffset c.instrs k⟩)
        (Machine.step call closure chunk ⟨locals, stack ++ below, codeOffset c.instrs k⟩)) ∧
      Run.Ends (Machine.step call closure chunk ⟨locals, stack, codeOffset c.instrs k⟩)
        fun progress => ∀ next, progress = .running next → next.Stands c standings := by
  obtain ⟨bound, hsegment⟩ := h.segment
  have hfits := hsegment.fits k i here hi hhere hlive
  obtain ⟨labels, htargets, hlabels⟩ := hfits.jumps
  obtain ⟨operand, hresolved, hstep⟩ := hassembled.step_eq hi
  have hreads := hfits.reads
  -- The operand that the machine reads is the one in the buffer, unless it is a label.
  have hnumber : i.op.isJump = false → decoded i.op.width operand = i.number := by
    intro hjump
    rw [Instr.resolved, hjump] at hresolved
    cases hresolved
    rfl
  have hread : i.op.reads (decoded i.op.width operand) = i.op.reads i.number := by
    cases hjump : i.op.isJump with
    | true => exact Opcode.reads_of_isJump hjump _ _
    | false => rw [hnumber hjump]
  have hchange : i.op.change (decoded i.op.width operand) = i.op.change i.number := by
    cases hjump : i.op.isJump with
    | true => exact Opcode.change_of_isJump hjump _ _
    | false => rw [hnumber hjump]
  refine ⟨by omega, fun below => ?_, ?_⟩
  · rw [hstep, hstep]
    have hlow : i.op.reads (decoded i.op.width operand) ≤
        (⟨locals, stack, codeOffset c.instrs (k + 1)⟩ : Frame).stack.length := by
      simp only [hread]
      omega
    exact (execute_performs _ _ _ below).lifts hlow
  · rw [hstep]
    intro heap progress heap' heq next hnext
    have hled := (execute_performs _ _ _ []).ends heap progress heap' heq
    subst hnext
    cases hled with
    | falls hfalls hoffset hlength =>
      refine ⟨k + 1, _, hfits.falls hfalls, rfl, hoffset, ?_⟩
      rw [hlength, hchange, hstack]
    | jumps hjump hoffset hlength =>
      rw [Instr.resolved, if_pos hjump] at hresolved
      rw [Instr.targets?, if_pos hjump] at htargets
      cases htargets
      obtain ⟨info, hinfo, hknown, hdepth⟩ := hlabels i.operand mem_cons_self
      obtain ⟨k', hplace, hstanding⟩ := h.target hinfo hknown hresolved
      refine ⟨k', _, hstanding, rfl, ?_, ?_⟩
      · have hwidth : i.op.width = 2 := by
          generalize i.op = op at hjump
          cases op <;> first | rfl | cases hjump
        have hle := codeOffset_le c.instrs k'
        rw [← c.size_eq] at hle
        have hsize := hassembled.size_le
        rw [hoffset, hplace, hwidth, decoded]
        · omega
        · decide
        · decide
      · rw [hlength, hstack, hdepth]
    | @looksUp _ table v htable hentry hoffset hlength =>
      have hjump : i.op.isJump = false := by rw [htable]; rfl
      rw [hnumber hjump] at hentry
      rw [Instr.targets?, if_neg (by simp [hjump]), if_pos htable] at htargets
      obtain ⟨t, ht, hall⟩ := Option.map_eq_some_iff.mp htargets
      obtain ⟨table', htable', hlookup⟩ := hassembled.lookup_eq ht
      obtain rfl : table = table' := by simpa [hentry] using htable'
      obtain ⟨info, hinfo, hknown, hdepth⟩ := hlabels (t.labelFor v) (hall ▸ t.labelFor_mem v)
      obtain ⟨k', hplace, hstanding⟩ := h.target hinfo hknown (hlookup v)
      exact ⟨k', _, hstanding, rfl, hoffset.trans hplace, by rw [hlength, hstack, hdepth]⟩

/-- Whatever is reached from a place that is known is a place that is known. -/
theorem reaches (h : c.Annotated standings) (hassembled : Assembled c chunk) {n : Nat}
    {frame frame' : Frame} {heap heap' : Heap} (hstands : frame.Stands c standings)
    (hreaches : Reaches (Machine.step call closure chunk) n frame heap frame' heap') :
    frame'.Stands c standings := by
  induction hreaches with
  | refl => exact hstands
  | @head _ frame next _ _ _ _ hstep _ ih =>
    obtain ⟨k, here, hhere, hlive, hoffset, hstack⟩ := hstands
    obtain ⟨locals, stack, offset⟩ := frame
    obtain rfl : offset = codeOffset c.instrs k := hoffset
    cases hi : c.instrs[k]? with
    | some i =>
      exact ih ((h.step hassembled call closure hi hhere hlive hstack).2.2 _ _ _ hstep next rfl)
    -- Behind the last instruction there is nothing to carry out.
    | none =>
      have hend : (chunk.code.size : Int) ≤ codeOffset c.instrs k := by
        apply Int.le_of_eq
        rw [hassembled.code_size, c.size_eq, codeOffset,
          take_of_length_le (getElem?_eq_none_iff.mp hi)]
      rw [Machine.step, if_pos hend] at hstep
      cases hstep

theorem stands_startFrame (h : c.Annotated standings) (args : List Value) :
    (startFrame chunk args).Stands c standings := by
  obtain ⟨bound, hsegment⟩ := h.segment
  refine ⟨0, .start, ?_, rfl, ?_, rfl⟩
  · rw [← head?_eq_getElem?]
    exact hsegment.first
  · simp [startFrame, codeOffset]

end Code.Annotated

end ExprBackend
