import ExprBackend.Proofs.Annotation

/-! # What emissions leave alone

The code of an expression places and jumps to labels that it has made itself, and
to the top of the dispatch loop. So what is known of other labels stays known, code
that cannot be reached stays so until a label is placed that was jumped to, and if
no one else places the top of the loop, it is never placed: code that jumps there
cannot be assembled.
-/

namespace ExprBackend

variable {c c' : Code} {d : Int} {info : LabelInfo} {l : Label} {own : List Label}

namespace Code

/-- The label at the top of the dispatch loop, once it has been asked for. -/
def loop? (c : Code) : Option Label := c.namedLabels.lookup loopLabel

/-- The labels at hand and the top of the loop are there, and are not the same. -/
structure Keeping (own : List Label) (c : Code) : Prop where
  loop : ∀ l, c.loop? = some l → ∃ info, c.label? l = some info
  own : ∀ l ∈ own, (∃ info, c.label? l = some info) ∧ c.loop? ≠ some l

/-- There is a jump to a label that is not placed. -/
def Hangs (c : Code) (l : Label) : Prop :=
  (∃ info, c.label? l = some info ∧ info.position = none) ∧ (⟨.jump, l⟩ : Instr) ∈ c.body

/-- A label that no code that can be reached has jumped to. -/
def Unvisited (c : Code) (l : Label) : Prop := ∀ info, c.label? l = some info → info.depth < 0

/-- What every emission leaves as it is that has the given labels at hand. -/
structure Steady (own : List Label) (c c' : Code) : Prop where
  room : c.prologue.size + c.body.size ≤ c'.prologue.size + c'.body.size
  loop : ∀ l, c.loop? = some l → c'.loop? = some l
  known : ∀ l info, c.label? l = some info →
    ∃ info', c'.label? l = some info' ∧ (0 ≤ info.depth → info'.depth = info.depth)
  keeping : c.Keeping own → c'.Keeping own
  hangs : c.Keeping own → (∀ l, c.loop? = some l → c.Hangs l) → ∀ l, c'.loop? = some l → c'.Hangs l
  dead : c.reachable = false → (∀ l ∈ own, c.Unvisited l) →
    c'.reachable = false ∧ ∀ l ∈ own, c'.Unvisited l

/-- A jump that is recorded changes no more than the height at its label. -/
theorem Branches.label_info {l' : Label} (h : c.Branches l d c') (hinfo : c.label? l' = some info) :
    ∃ info', c'.label? l' = some info' ∧ info'.position = info.position ∧
      (0 ≤ info.depth → info'.depth = info.depth) := by
  cases h with
  | dead | backward => exact ⟨info, hinfo, rfl, fun _ => rfl⟩
  | @forward old _ hold _ hdepth =>
    by_cases heq : l' = l
    · subst heq
      obtain rfl : old = info := Option.some_inj.mp (hold.symm.trans hinfo)
      exact ⟨_, label?_set_same rfl hold, rfl, fun hknown => (hdepth hknown).symm⟩
    · exact ⟨info, (label?_set_other rfl heq (lt_of_label? hold).1).trans hinfo, rfl, fun _ => rfl⟩

namespace Steady

variable {c'' : Code}

theorem trans (h : c.Steady own c') (h' : c'.Steady own c'') : c.Steady own c'' where
  room := Nat.le_trans h.room h'.room
  loop l hl := h'.loop l (h.loop l hl)
  known l info hinfo := by
    obtain ⟨info1, hinfo1, hdepth1⟩ := h.known l info hinfo
    obtain ⟨info2, hinfo2, hdepth2⟩ := h'.known l info1 hinfo1
    refine ⟨info2, hinfo2, fun hknown => ?_⟩
    have heq := hdepth1 hknown
    rw [hdepth2 (heq ▸ hknown), heq]
  keeping hc := h'.keeping (h.keeping hc)
  hangs hc hhangs := h'.hangs (h.keeping hc) (h.hangs hc hhangs)
  dead hdead hown := by
    obtain ⟨hdead1, hown1⟩ := h.dead hdead hown
    exact h'.dead hdead1 hown1

/-- An emission that has nothing to do with labels. -/
theorem of_labels (hlabels : c'.labels = c.labels) (hnamed : c'.namedLabels = c.namedLabels)
    (hroom : c.prologue.size + c.body.size ≤ c'.prologue.size + c'.body.size)
    (hbody : ∀ i, i ∈ c.body → i ∈ c'.body) (hdead : c.reachable = false → c'.reachable = false) :
    c.Steady own c' := by
  have hlabel : ∀ l, c'.label? l = c.label? l := label?_of_labels_eq hlabels
  have hloop : c'.loop? = c.loop? := by rw [loop?, loop?, hnamed]
  refine ⟨hroom, fun l hl => hloop ▸ hl, fun l info hinfo => ⟨info, (hlabel l).trans hinfo,
    fun _ => rfl⟩, fun hc => ⟨fun l hl => ?_, fun l hl => ?_⟩, fun _ hhangs l hl => ?_,
    fun hc hown => ⟨hdead hc, fun l hl info hinfo => ?_⟩⟩
  · rw [hlabel]
    exact hc.loop l (hloop ▸ hl)
  · rw [hlabel, hloop]
    exact hc.own l hl
  · obtain ⟨⟨info, hinfo, hposition⟩, hjump⟩ := hhangs l (hloop ▸ hl)
    exact ⟨⟨info, (hlabel l).trans hinfo, hposition⟩, hbody _ hjump⟩
  · exact hown l hl info ((hlabel l).symm.trans hinfo)

theorem refl (c : Code) : c.Steady own c :=
  of_labels rfl rfl (Nat.le_refl _) (fun _ h => h) id

theorem appended (c : Code) (op : Opcode) (operand change : Int) :
    c.Steady own (c.appended op operand change) := by
  refine of_labels rfl rfl ?_ (fun i hi => Array.mem_push_of_mem _ hi) id
  rw [appended_prologue, appended_body, Array.size_push]
  omega

theorem ended (c : Code) : c.Steady own c.ended :=
  of_labels rfl rfl (Nat.le_refl _) (fun _ h => h) fun _ => rfl

theorem noted (c : Code) (emitting : List LazySignature) (events : Array Event)
    (observations : Array Observation) : c.Steady own (c.noted emitting events observations) :=
  of_labels rfl rfl (Nat.le_refl _) (fun _ h => h) id

theorem declared (c : Code) (name : Text) : c.Steady own (c.declared name) := by
  rw [declared_eq]
  exact of_labels rfl rfl (Nat.le_refl _) (fun _ h => h) id

/-- A label that is made is at hand from then on. -/
theorem of_labelled (h : c.labelled.Steady ((c.labels.size : Int) :: own) c') :
    c.Steady own c' := by
  have hnew : ∀ info, c.label? c.labels.size ≠ some info := fun info hinfo => by
    have hlt := (lt_of_label? hinfo).2
    rw [Int.toNat_natCast] at hlt
    exact Nat.lt_irrefl _ hlt
  have hkeeping : c.Keeping own → c.labelled.Keeping ((c.labels.size : Int) :: own) := by
    refine fun hc => ⟨fun l hl => ?_, fun l hl => ?_⟩
    · obtain ⟨info, hinfo⟩ := hc.loop l hl
      exact ⟨info, label?_labelled hinfo⟩
    · rcases List.mem_cons.mp hl with rfl | hl
      · refine ⟨⟨_, c.label?_labelled_new⟩, fun hloop => ?_⟩
        obtain ⟨info, hinfo⟩ := hc.loop _ hloop
        exact hnew info hinfo
      · obtain ⟨⟨info, hinfo⟩, hloop⟩ := hc.own l hl
        exact ⟨⟨info, label?_labelled hinfo⟩, hloop⟩
  refine ⟨h.room, h.loop, fun l info hinfo => h.known l info (label?_labelled hinfo), fun hc => ?_,
    fun hc hhangs => h.hangs (hkeeping hc) fun l hl => ?_, fun hdead hown => ?_⟩
  · have hc' := h.keeping (hkeeping hc)
    exact ⟨hc'.loop, fun l hl => hc'.own l (List.mem_cons_of_mem _ hl)⟩
  · obtain ⟨⟨info, hinfo, hposition⟩, hjump⟩ := hhangs l hl
    exact ⟨⟨info, label?_labelled hinfo, hposition⟩, hjump⟩
  · -- What is known of the old labels is known of them still, and nothing is known of the new one.
    have hunvisited : ∀ l ∈ (c.labels.size : Int) :: own, c.labelled.Unvisited l := by
      intro l hl info hinfo
      rcases label?_of_labelled hinfo with hold | ⟨-, rfl⟩
      · rcases List.mem_cons.mp hl with rfl | hl
        · exact absurd hold (hnew info)
        · exact hown l hl info hold
      · decide
    obtain ⟨hdead', hown'⟩ := h.dead hdead hunvisited
    exact ⟨hdead', fun l hl => hown' l (List.mem_cons_of_mem _ hl)⟩

/-- Something else becomes known of a label at hand. -/
theorem relabel (hl : l ∈ own) (hnamed : c'.namedLabels = c.namedLabels) (hbody : c'.body = c.body)
    (hprologue : c'.prologue = c.prologue) (hother : ∀ l', l' ≠ l → c'.label? l' = c.label? l')
    (hsame : ∀ info, c.label? l = some info →
      ∃ info', c'.label? l = some info' ∧ (0 ≤ info.depth → info'.depth = info.depth))
    (hdead : c.reachable = false → c.Unvisited l → c'.reachable = false ∧ c'.Unvisited l) :
    c.Steady own c' := by
  have hloop : c'.loop? = c.loop? := by rw [loop?, loop?, hnamed]
  have hknown : ∀ l' info, c.label? l' = some info →
      ∃ info', c'.label? l' = some info' ∧ (0 ≤ info.depth → info'.depth = info.depth) := by
    intro l' info hinfo
    by_cases heq : l' = l
    · subst heq
      exact hsame info hinfo
    · exact ⟨info, (hother l' heq).trans hinfo, fun _ => rfl⟩
  refine ⟨Nat.le_of_eq (by rw [hbody, hprologue]), fun l hl => hloop ▸ hl, hknown,
    fun hc => ⟨fun l' hl' => ?_, fun l' hl' => ?_⟩, fun hc hhangs l' hl' => ?_, fun hc hown => ?_⟩
  · obtain ⟨info, hinfo⟩ := hc.loop l' (hloop ▸ hl')
    obtain ⟨info', hinfo', -⟩ := hknown l' info hinfo
    exact ⟨info', hinfo'⟩
  · obtain ⟨⟨info, hinfo⟩, hapart⟩ := hc.own l' hl'
    obtain ⟨info', hinfo', -⟩ := hknown l' info hinfo
    exact ⟨⟨info', hinfo'⟩, hloop ▸ hapart⟩
  · obtain ⟨⟨info, hinfo, hposition⟩, hjump⟩ := hhangs l' (hloop ▸ hl')
    -- The label at hand is not the top of the loop.
    have hne : l' ≠ l := fun heq => (hc.own l hl).2 (heq ▸ hloop ▸ hl')
    exact ⟨⟨info, (hother l' hne).trans hinfo, hposition⟩, hbody ▸ hjump⟩
  · obtain ⟨hdead', hunvisited⟩ := hdead hc (hown l hl)
    refine ⟨hdead', fun l' hl' info hinfo => ?_⟩
    by_cases heq : l' = l
    · subst heq
      exact hunvisited info hinfo
    · exact hown l' hl' info ((hother l' heq).symm.trans hinfo)

theorem branches (hl : l ∈ own) (h : c.Branches l d c') : c.Steady own c' := by
  cases h with
  | dead | backward => exact refl c
  | @forward info hlive hinfo _ hdepth =>
    refine relabel hl rfl rfl rfl (fun l' hne => label?_set_other rfl hne (lt_of_label? hinfo).1)
      (fun old hold => ?_) fun hdead => ?_
    · obtain rfl : info = old := Option.some_inj.mp (hinfo.symm.trans hold)
      exact ⟨_, label?_set_same rfl hinfo, fun hknown => (hdepth hknown).symm⟩
    · rw [hlive] at hdead
      cases hdead

theorem marked (hl : l ∈ own) (hinfo : c.label? l = some info)
    (hdepth : c.reachable = true → 0 ≤ info.depth → info.depth = c.depth) :
    c.Steady own (c.marked l info) := by
  have hsame : (c.marked l info).label? l =
      some ⟨some c.body.size, if c.reachable then c.depth else info.depth⟩ :=
    label?_set_same rfl hinfo
  refine relabel hl rfl rfl rfl (fun l' hne => label?_set_other rfl hne (lt_of_label? hinfo).1)
    (fun old hold => ?_) fun hdead hunvisited => ?_
  · obtain rfl : info = old := Option.some_inj.mp (hinfo.symm.trans hold)
    refine ⟨_, hsame, fun hknown => ?_⟩
    split
    next hlive => exact (hdepth hlive hknown).symm
    next => rfl
  -- No code that can be reached has jumped to the label, so its place is not reached.
  · have hnegative := hunvisited info hinfo
    refine ⟨by simp [hdead, hnegative], fun new hnew => ?_⟩
    obtain rfl := Option.some_inj.mp (hsame.symm.trans hnew)
    simpa [hdead] using hnegative

end Steady

end Code

/-! ## Emissions -/

namespace Emit

/-- If the emission succeeds, it leaves alone all labels but those at hand. -/
abbrev Steadies {α : Type} (own : List Label) (x : Emit α) : Prop :=
  Always (fun ok own c c' => ok = true → c.Steady own c') own x

theorem progress_steady : Code.Progress fun ok own c c' => ok = true → c.Steady own c' where
  refl c _ := .refl c
  trans h h' hok := (h rfl).trans (h' hok)
  appended c _ _ _ _ _ := .appended c ..
  pooled _ _ _ := .of_labels rfl rfl (Nat.le_refl _) (fun _ h => h) id
  labelled h hok := .of_labelled (h hok)
  ended c _ := .ended c
  branches hl h _ := .branches hl h
  marked hl _ hinfo _ hdepth _ := .marked hl hinfo hdepth
  misplaced _ _ _ hok := by cases hok

/-- A jump to the top of the loop, which is asked for here if it was not asked for before. -/
theorem steadies_jump_loop : Steadies own (do jump (← namedLabel loopLabel)) := by
  intro marks c result c' h hok
  obtain ⟨u, rfl⟩ : ∃ u, result = .ok u := by
    cases result <;> first | exact ⟨_, rfl⟩ | cases hok
  obtain ⟨l, c1, hlabel, hjump⟩ := yields_bind.mp h
  obtain ⟨c2, hbranch, rfl⟩ := jump_of_yields hjump
  have heq := hbranch.eq_labels
  have hjumps : (⟨.jump, l⟩ : Instr) ∈ (c2.appended .jump l 0).ended.body := by simp
  have hroom : c1.prologue.size + c1.body.size ≤
      (c2.appended .jump l 0).ended.prologue.size + (c2.appended .jump l 0).ended.body.size := by
    rw [heq]
    simp
  have hnamed : (c2.appended .jump l 0).ended.loop? = c1.loop? := by
    rw [heq]
    rfl
  cases hloop : c.loop? with
  | some found =>
    obtain ⟨rfl, rfl⟩ := (yields_namedLabel hloop).mp hlabel
    have hkept : ∀ l' info, c.label? l' = some info → ∃ info', c2.label? l' = some info' := by
      intro l' info hinfo
      obtain ⟨info', hinfo', -⟩ := hbranch.label_info hinfo
      exact ⟨info', hinfo'⟩
    refine ⟨hroom, fun l' hl' => hnamed.trans hl', fun l' info hinfo => ?_,
      fun hc => ⟨fun l' hl' => ?_, fun l' hl' => ?_⟩, fun _ hhangs l' hl' => ?_,
        fun hdead hown => ?_⟩
    · obtain ⟨info', hinfo', -, hdepth⟩ := hbranch.label_info hinfo
      exact ⟨info', hinfo', hdepth⟩
    · obtain ⟨info, hinfo⟩ := hc.loop l' (hnamed ▸ hl')
      exact hkept l' info hinfo
    · obtain ⟨⟨info, hinfo⟩, hapart⟩ := hc.own l' hl'
      exact ⟨hkept l' info hinfo, hnamed ▸ hapart⟩
    · obtain rfl : found = l' := Option.some_inj.mp (hloop.symm.trans (hnamed ▸ hl'))
      obtain ⟨⟨info, hinfo, hposition⟩, -⟩ := hhangs found hloop
      obtain ⟨info', hinfo', hsame, -⟩ := hbranch.label_info hinfo
      exact ⟨⟨info', hinfo', hsame.trans hposition⟩, hjumps⟩
    · cases hbranch with
      | dead => exact ⟨rfl, hown⟩
      | backward hlive | forward hlive =>
        rw [hlive] at hdead
        cases hdead
  | none =>
    obtain ⟨rfl, rfl⟩ := namedLabel_of_yields hlabel hloop
    have hnew : (c2.appended .jump c.labels.size 0).ended.loop? = some (c.labels.size : Int) := by
      rw [hnamed]
      simp [Code.loop?]
    -- The label is new, so nobody has placed it.
    obtain ⟨placed, hplaced, hposition, -⟩ := hbranch.label_info c.label?_labelled_new
    refine ⟨hroom, fun l' hl' => absurd hl' (by rw [hloop]; exact nofun), fun l' info hinfo => ?_,
      fun hc => ⟨fun l' hl' => ?_, fun l' hl' => ?_⟩, fun _ hhangs l' hl' => ?_,
        fun hdead hown => ?_⟩
    · obtain ⟨info', hinfo', -, hdepth⟩ := hbranch.label_info (Code.label?_labelled hinfo)
      exact ⟨info', hinfo', hdepth⟩
    · obtain rfl := Option.some_inj.mp (hnew.symm.trans hl')
      exact ⟨placed, hplaced⟩
    · obtain ⟨⟨info, hinfo⟩, -⟩ := hc.own l' hl'
      obtain ⟨info', hinfo', -⟩ := hbranch.label_info (Code.label?_labelled hinfo)
      refine ⟨⟨info', hinfo'⟩, fun hl' => ?_⟩
      obtain rfl := Option.some_inj.mp (hnew.symm.trans hl')
      have hlt := (Code.lt_of_label? hinfo).2
      rw [Int.toNat_natCast] at hlt
      exact Nat.lt_irrefl _ hlt
    · obtain rfl := Option.some_inj.mp (hnew.symm.trans hl')
      exact ⟨⟨placed, hplaced, hposition⟩, hjumps⟩
    · cases hbranch with
      | dead =>
        refine ⟨rfl, fun l' hl' info hinfo => ?_⟩
        rcases Code.label?_of_labelled hinfo with hold | ⟨-, rfl⟩
        · exact hown l' hl' info hold
        · decide
      | backward hlive | forward hlive =>
        have hdead' : c.reachable = true := hlive
        rw [hdead] at hdead'
        cases hdead'

theorem steady : Code.Expansion fun ok own c c' => ok = true → c.Steady own c' where
  toProgress := progress_steady
  coded c _ _ _ _ := .appended c ..
  declared c name _ := .declared c name
  noted _ _ _ _ _ _ := .of_labels rfl rfl (Nat.le_refl _) (fun _ h => h) id
  within h hok := ((Code.Steady.noted ..).trans (h hok)).trans (.noted ..)
  headed _ _ _ _ _ := .of_labels rfl rfl (by simp; omega) (fun _ h => h) id
  loop := @fun _ => steadies_jump_loop

end Emit

namespace Node

open Emit

/-- The code of an expression leaves all labels alone but its own and the top of the loop. -/
theorem steadies (n : Node) : Steadies own (expression n n.emit) := steady.related n own

end Node

end ExprBackend
