import ExprBackend.Proofs.Simulation

/-! # Simulation of branches

Code branches forward only. A branch goes to a label that is made for it, is known
to be open until it is placed, and is reached with one height of the stack
wherever the jumps to it stand. What follows the first jump to such a label up to
the place where both ways meet again is its tail. A tail has two actions: one for
code that runs into it, and one for code that enters it at its label.
-/

namespace ExprBackend

open List

variable {M : Setting} {c : Code} {ctx : Context} {k p : Nat} {l : Label} {mode : Mode}

namespace Setting

/-- The place of a label in the code. -/
def Placed (M : Setting) (l : Label) (p : Nat) : Prop :=
  ∃ info, M.code.label? l = some info ∧ info.position = some p ∧ p ≤ M.code.body.size

theorem placed_of_grows {info : LabelInfo} (hgrows : c.Grows M.code)
    (hlabel : c.label? l = some info) (hposition : info.position = some c.body.size) :
    M.Placed l c.body.size :=
  ⟨info, hgrows.placed l info hlabel (by rw [hposition]; rfl), hposition, hgrows.size_le⟩

section Jumps

variable {st : List Value} {s : Scene} {v : Value}

theorem step_jump {op : Opcode} (hins : M.code.body[k]? = some ⟨op, l⟩) (hop : op.isJump = true)
    (hplaced : M.Placed l p) (locals : Text → Value) (st : List Value) :
    M.step (M.frame k locals st) = Machine.execute M.call M.closure M.chunk op (M.code.place p)
      (M.frame (k + 1) locals st) := by
  obtain ⟨info, hlabel, hposition, hle⟩ := hplaced
  exact M.assembled.step_jump hins hop hlabel hposition hle M.call M.closure _ st

theorem runs_jump (hins : M.code.body[k]? = some ⟨.jump, l⟩) (hplaced : M.Placed l p) :
    M.Runs 1 k st s p st s := by
  refine .single ?_
  rw [step_jump hins rfl hplaced]
  rfl

/-- A jump table goes on at the label for the top. -/
theorem runs_jumpTable {i : Nat} {t : TableSpec} (hins : M.code.body[k]? = some ⟨.jumpTable, i⟩)
    (hi : i ≤ 65535) (ht : M.code.tables[i]? = some t) (hplaced : M.Placed (t.labelFor v) p) :
    M.Runs 1 k (v :: st) s p st s := by
  obtain ⟨info, hlabel, hposition, hle⟩ := hplaced
  obtain ⟨table, htable, hlookup⟩ := M.assembled.table_lookup ht
  have hoperand : decoded Opcode.jumpTable.width i = i := decoded_word rfl hi
  refine .single ?_
  rw [step, frame, M.assembled.step_body hins rfl, hoperand]
  simp only [Machine.execute, htable]
  change (Except.ok (Machine.Progress.running _), s.heap) = _
  rw [hlookup v info p hlabel hposition hle]
  rfl

end Jumps

end Setting

/-! ## Conditional jumps -/

/-- The operation that jumps if the top has a truth value, and keeps the top then or not. -/
def Opcode.branch : (on keep : Bool) → Opcode
  | false, false => .jumpIfFalse
  | true, false => .jumpIfTrue
  | false, true => .jumpIfFalseOrPop
  | true, true => .jumpIfTrueOrPop

def Emit.branch (on : Bool) : (keep : Bool) → Label → Emit Unit
  | false => popJump (.branch on false)
  | true => jumpOrPop (.branch on true)

/-- The stack with which a conditional jump reaches its label. -/
def Action.carried (keep : Bool) (v : Value) (st : List Value) : List Value :=
  if keep then v :: st else st

/-- Goes on by the truth of the top. -/
def Action.branch (on keep : Bool) (goOn entered : List Value → Perform (List Value)) :
    List Value → Perform (List Value)
  | v :: st => do
    if (← Perform.ofRun (Run.truthy v)) = on then entered (carried keep v st) else goOn st
  | [] => underflow

variable {on keep : Bool}

theorem Setting.runs_branch (hins : M.code.body[k]? = some ⟨.branch on keep, l⟩)
    (hplaced : M.Placed l p) (v : Value) (st : List Value) (s : Scene) :
    if s.heap.truthy v = on then M.Runs 1 k (v :: st) s p (Action.carried keep v st) s
    else M.Runs 1 k (v :: st) s (k + 1) st s := by
  have hjump : (Opcode.branch on keep).isJump = true := by cases on <;> cases keep <;> rfl
  have hstep := step_jump hins hjump hplaced s.locals (v :: st)
  have hexec : M.step (M.frame k s.locals (v :: st)) s.heap = (.ok (.running
      (if s.heap.truthy v = on then M.frame p s.locals (Action.carried keep v st)
        else M.frame (k + 1) s.locals st)), s.heap) := by
    rw [hstep]
    cases on <;> cases keep <;> change (Except.ok (if s.heap.truthy v then _ else _),
      s.heap) = _ <;> cases s.heap.truthy v <;> rfl
  split
  next htruth =>
    rw [if_pos htruth] at hexec
    exact .single hexec
  next htruth =>
    rw [if_neg htruth] at hexec
    exact .single hexec

/-- A conditional jump records the height with which it reaches its label. -/
theorem Emit.ready_branch {marks : Marks} {c' : Code} {u : Unit} {d : Int}
    (h : (branch on keep l).Yields marks c u c') (hready : c.Ready mode ctx) (hopen : c.Open l d)
    (hneed : c.reachable = true → 1 ≤ c.depth) (hsize : c'.body.size ≤ 65535) : c'.Ready mode ctx ∧
      c'.Open l (if c.reachable then c.depth - (if keep then 0 else 1) else d) ∧
      (∀ l', l' ≠ l → c'.label? l' = c.label? l') ∧
      c'.body = c.body.push ⟨.branch on keep, l⟩ ∧
      c'.reachable = c.reachable ∧ c'.depth = c.depth - 1 := by
  cases keep with
  | false => exact ready_popJump h hready hopen hneed hsize
  | true => simpa using ready_jumpOrPop h hready hopen hneed hsize

theorem Emit.growing_branch (on keep : Bool) (l : Label) : Growing (branch on keep l) := by
  cases keep with
  | false => cases on <;> exact grows.popJumpAny rfl l
  | true => cases on <;> exact grows.jumpOrPopAny rfl l

theorem Emit.leave_eq (junction : Junction) (l : Label) :
    leave junction l = branch (junction.endsWith true) true l := by
  cases junction <;> rfl

/-! ## Tails -/

theorem Perform.truthy_bind {α : Type} (v : Value) (f : Bool → Perform α) (s : Scene) :
    (Perform.ofRun (Run.truthy v) >>= f) s = f (s.heap.truthy v) s := rfl

/-- A label waits for jumps with one height, which is a fixed amount above that of the code before
its tail. -/
structure Code.Awaits (c : Code) (l : Label) (d need raise : Int) : Prop where
  isOpen : c.Open l d
  le_size : d ≤ c.body.size
  depth : c.reachable = true → 0 ≤ d → d = c.depth + raise
  need_le : 0 ≤ d → need + raise ≤ d

/-- Both ways through a tail have met. -/
structure Code.Joins (own : List Label) (l : Label) (d : Int) (count : Nat) (change raise : Int)
    (c c' : Code) : Prop where
  labels : ∀ l' info, l' ∉ l :: own → c.label? l' = some info → c'.label? l' = some info
  size_le : c.body.size + count ≤ c'.body.size
  dead : c.reachable = false → d < 0 → c'.reachable = false
  depth : c.reachable = true → c'.reachable = true → c'.depth = c.depth + change
  depth_entered : 0 ≤ d → c'.reachable = true → c'.depth = d - raise + change

namespace Emit

/-- The emission is a tail: it places a label, and simulates one action for code that runs into it
and another for code that enters it at the label. It may rely on a jump to the label before it. -/
structure Tail (M : Setting) (mode : Mode) (own : List Label) (l : Label) (jumped : Prop)
    (x : Emit Unit) (ctx ctx' : Context) (need : Int) (count : Nat) (change raise : Int)
    (action entered : List Value → Perform (List Value)) : Prop where
  growing : Growing x
  step : ∀ ⦃marks : Marks⦄ ⦃c : Code⦄ ⦃u : Unit⦄ ⦃c' : Code⦄ ⦃d : Int⦄, x.Yields marks c u c' →
    c.Ready mode ctx → (∀ l' ∈ own, c.Open l' (-1)) → c.Awaits l d need raise →
    (mode.head = none → jumped → 0 ≤ d) → (mode.head = none → c.reachable = true) →
    (c.reachable = true → need ≤ c.depth) → c'.body.size ≤ 65535 →
    c'.Ready mode ctx' ∧ c.Joins own l d count change raise c' ∧
      (mode.head = none → c'.reachable = true) ∧
      (c'.Grows M.code → mode.Marked marks →
        (c.reachable = true → ∀ st s, (st.length : Int) = c.depth →
          M.Realizes mode c.body.size c' st s (action st s)) ∧
        (0 ≤ d → ∃ p, c.body.size ≤ p ∧ M.Placed l p ∧ ∀ st s, (st.length : Int) = d →
          M.Realizes mode p c' st s (entered st s)))

/-- The emission simulates an action, given labels of its own. -/
structure SimOn (M : Setting) (mode : Mode) (own : List Label) (x : Emit Unit) (ctx ctx' : Context)
    (need : Int) (count : Nat) (change : Int) (action : List Value → Perform (List Value)) :
    Prop where
  growing : Growing x
  step : ∀ ⦃marks : Marks⦄ ⦃c : Code⦄ ⦃u : Unit⦄ ⦃c' : Code⦄, x.Yields marks c u c' →
    c.Ready mode ctx → (∀ l ∈ own, c.Open l (-1)) → (mode.head = none → c.reachable = true) →
    (c.reachable = true → need ≤ c.depth) → c'.body.size ≤ 65535 →
    c'.Ready mode ctx' ∧ c.Flow own count change c' ∧ (mode.head = none → c'.reachable = true) ∧
      (c'.Grows M.code → mode.Marked marks → c.reachable = true →
        ∀ st s, (st.length : Int) = c.depth → M.Realizes mode c.body.size c' st s (action st s))

section Tails

variable {ctx1 ctx2 : Context} {own : List Label} {x : Emit Unit} {need need1 need2 : Int}
  {count count1 count2 : Nat} {change change1 change2 raise : Int}
  {action entered : List Value → Perform (List Value)} {jumped : Prop} {t : Emit Unit}
  {action2 action1 : List Value → Perform (List Value)}

theorem sim_of_simOn (h : SimOn M mode [] x ctx ctx1 need count change action) :
    Sim M mode x ctx ctx1 need count change action where
  keeps := ⟨h.growing, fun marks c u c' hx hready hlive hneed hsize => by
    obtain ⟨hready', hflow, hlive', -⟩ := h.step hx hready (by simp) hlive hneed hsize
    exact ⟨hready', hflow, hlive'⟩⟩
  run marks c u c' hx hready hlive hneed hgrows hmarks :=
    (h.step hx hready (by simp) (fun _ => hlive) (fun _ => hneed)
      (size_le_of_grows hgrows)).2.2.2 hgrows hmarks hlive

theorem SimOn.mono {own' : List Label} (h : SimOn M mode own x ctx ctx1 need count change action)
    (hown : own ⊆ own') : SimOn M mode own' x ctx ctx1 need count change action where
  growing := h.growing
  step marks c u c' hx hready hopen hlive hneed hsize := by
    obtain ⟨hready', hflow, hrest⟩ := h.step hx hready (fun l hl => hopen l (hown hl)) hlive hneed
      hsize
    exact ⟨hready', hflow.mono hown, hrest⟩

/-- A label that is new is open, and differs from all others. -/
theorem simOn_newLabel {f : Label → Emit Unit} (hgrowing : ∀ l, Growing (f l))
    (h : ∀ l, l ∉ own → SimOn M mode (l :: own) (f l) ctx ctx1 need count change action) :
    SimOn M mode own (newLabel >>= f) ctx ctx1 need count change action where
  growing := grows.newLabel hgrowing
  step marks c u c' hx hready hopen hlive hneed hsize := by
    obtain ⟨_, _, hnew, hrest⟩ := yields_bind.mp hx
    obtain ⟨rfl, rfl⟩ := yields_newLabel.mp hnew
    have hfresh : ∀ l info, c.label? l = some info → l ≠ c.labels.size := by
      rintro l info hlabel rfl
      have := (Code.lt_of_label? hlabel).2
      omega
    have hopen' : ∀ l ∈ (c.labels.size : Int) :: own, c.labelled.Open l (-1) := by
      intro l hl
      rcases mem_cons.mp hl with rfl | hl
      · exact c.label?_labelled_new
      · exact Code.label?_labelled (hopen l hl)
    obtain ⟨hready', hflow, hlive', hrun⟩ := (h _ fun hl => hfresh _ _ (hopen _ hl) rfl).step hrest
      hready.labelled hopen' hlive hneed hsize
    refine ⟨hready', ⟨fun l info hl hlabel => ?_, hflow.size_le, hflow.dead, hflow.depth⟩, hlive',
      hrun⟩
    refine hflow.labels l info ?_ (Code.label?_labelled hlabel)
    rw [mem_cons, not_or]
    exact ⟨hfresh l info hlabel, hl⟩

theorem simOn_of_tail (h : Tail M mode own l False x ctx ctx1 need count change raise action
      entered) :
    SimOn M mode (l :: own) x ctx ctx1 need count change action where
  growing := h.growing
  step marks c u c' hx hready hopen hlive hneed hsize := by
    have hawaits : c.Awaits l (-1) need raise :=
      ⟨hopen l (by simp), by omega, fun _ h => by omega, fun h => by omega⟩
    obtain ⟨hready', hjoins, hlive', hrun⟩ := h.step hx hready
      (fun l' hl' => hopen l' (mem_cons_of_mem _ hl')) hawaits (fun _ => False.elim) hlive hneed
      hsize
    exact ⟨hready', ⟨hjoins.labels, hjoins.size_le, fun hdead => hjoins.dead hdead (by omega),
      hjoins.depth⟩, hlive', fun hgrows hmarks => (hrun hgrows hmarks).1⟩

theorem Tail.adjust {raise' : Int} {action' : List Value → Perform (List Value)}
    (h : Tail M mode own l jumped x ctx ctx1 need count1 change1 raise action entered)
    (hcount : count2 ≤ count1) (hchange : change1 = change2) (hraise : raise = raise')
    (haction : ∀ st, action st = action' st) :
    Tail M mode own l jumped x ctx ctx1 need count2 change2 raise' action' entered := by
  subst hchange hraise
  obtain rfl : action = action' := funext haction
  refine ⟨h.growing, fun marks c u c' d hx hready hown hawaits hjumped hlive hneed hsize => ?_⟩
  obtain ⟨hready', hjoins, hrest⟩ := h.step hx hready hown hawaits hjumped hlive hneed hsize
  have := hjoins.size_le
  exact ⟨hready', { hjoins with size_le := by omega }, hrest⟩

theorem Tail.relax (h : Tail M mode own l False x ctx ctx1 need count change raise action entered) :
    Tail M mode own l jumped x ctx ctx1 need count change raise action entered where
  growing := h.growing
  step _ _ _ _ _ hx hready hown hawaits _ :=
    h.step hx hready hown hawaits fun _ => False.elim

/-- The tail of code that goes on at the label anyway. -/
theorem tail_mark (h : Sim M mode x ctx ctx1 need count change action) :
    Tail M mode own l False (do x; mark l) ctx ctx1 need count change change action pure where
  growing := grows.bind h.keeps.growing fun _ => grows.markAny l
  step marks c u c' d hx hready _ hawaits _ hlive hneed hsize := by
    obtain ⟨_, c1, hfirst, hmark⟩ := yields_bind.mp hx
    have hgrows1 := grows.markAny l hmark
    obtain ⟨hready1, hflow, hlive1⟩ := h.keeps.step hfirst hready hlive hneed
      (Nat.le_trans hgrows1.size_le hsize)
    have hopen1 : c1.Open l d := hflow.labels l _ (by simp) hawaits.isOpen
    have hle : d ≤ c1.body.size := by
      have := hawaits.le_size
      have := hflow.size_le
      omega
    obtain ⟨hready', hothers, hbody, hreach, hkept, hknown, info, hlabel, hposition⟩ :=
      ready_mark hmark hready1 hopen1 hle
    have hsize1 : c'.body.size = c1.body.size := by rw [hbody]
    have hlive' : c1.reachable = true → c'.reachable = true := fun hc1 => by simp [hreach, hc1]
    refine ⟨hready', ⟨?_, ?_, ?_, ?_, ?_⟩, fun hhead => hlive' (hlive1 hhead), fun hgrows hmarks =>
      ⟨fun hc st s hst => ?_, fun hd => ⟨c'.body.size, ?_, ?_, fun st s hst => ?_⟩⟩⟩
    · intro l' info' hl' hlabel'
      rw [hothers l' fun heq => hl' (by simp [heq])]
      exact hflow.labels l' info' (by simp) hlabel'
    · rw [hbody]
      exact hflow.size_le
    · intro hdead hd
      simp [hreach, hflow.dead hdead, hd]
    · intro hc hc'
      rw [hreach, Bool.or_eq_true, decide_eq_true_eq] at hc'
      rcases hc' with hc1 | hd
      · rw [hkept hc1, hflow.depth hc hc1]
      · rw [hknown hd, hawaits.depth hc hd]
    · intro hd _
      rw [hknown hd]
      omega
    · refine (h.run hfirst hready hc (hneed hc)
        (hgrows1.trans hgrows) hmarks st s hst).leap (n := 0)
        (by omega) fun hc1 => ⟨hlive' hc1, hkept hc1, fun st1 s1 => ?_⟩
      rw [hbody]
      exact .refl _ _
    · have := hflow.size_le
      omega
    · refine Setting.placed_of_grows hgrows hlabel ?_
      rw [hposition, hbody]
    · refine .value (n := 0) ?_ ?_ (by omega) (.refl _ _)
      · simp [hreach, hd]
      · rw [hknown hd, hst]

/-- The tail of code that goes on elsewhere, where code that enters at the label gets as well. -/
theorem tail_join {done : Label} {raise2 : Int} {entered2 : List Value → Perform (List Value)}
    (hx : Sim M mode x ctx ctx1 need count1 (raise + raise2) action)
    (ht : Tail M mode [] done jumped t ctx1 ctx2 need2 count2 change2 raise2 action2 entered2)
    (hne : l ≠ done) (hneed2 : need2 ≤ need + raise) :
    Tail M mode [done] l True (do x; jump done; mark l; t) ctx ctx2 need (count1 + count2)
      (raise + change2) raise (fun st => action st >>= entered2) action2 where
  growing := grows.bind hx.keeps.growing fun _ => grows.bind (grows.jumpAny done) fun _ =>
    grows.bind (grows.markAny l) fun _ => ht.growing
  step marks c u c' d hyields hready hown hawaits hjumped hlive hneed hsize := by
    obtain ⟨_, c1, hfirst, h1⟩ := yields_bind.mp hyields
    obtain ⟨_, c2, hjump, h2⟩ := yields_bind.mp h1
    obtain ⟨_, c3, hmark, hrest⟩ := yields_bind.mp h2
    have hgrows3 := ht.growing hrest
    have hgrows2 := (grows.markAny l hmark).trans hgrows3
    have hgrows1 := (grows.jumpAny done hjump).trans hgrows2
    obtain ⟨hready1, hflow, hlive1⟩ := hx.keeps.step hfirst hready hlive hneed
      (Nat.le_trans hgrows1.size_le hsize)
    have hopen1 : c1.Open done (-1) := hflow.labels done _ (by simp) (hown done (by simp))
    obtain ⟨hready2, hdone, hothers2, hbody2, hdead2⟩ := ready_jump hjump hready1 hopen1
      (Nat.le_trans hgrows2.size_le hsize)
    have hsize2 : c2.body.size = c1.body.size + 1 := by simp [hbody2]
    have hopen2 : c2.Open l d := by
      rw [Code.Open, hothers2 l hne]
      exact hflow.labels l _ (by simp) hawaits.isOpen
    have hle : c.body.size + count1 ≤ c1.body.size := hflow.size_le
    obtain ⟨hready3, hothers3, hbody3, hreach3, -, hknown3, info, hlabel, hposition⟩ :=
      ready_mark hmark hready2 hopen2 (Int.le_trans hawaits.le_size (by omega))
    have hsize3 : c3.body.size = c2.body.size := by rw [hbody3]
    have hlive3 : c3.reachable = true ↔ 0 ≤ d := by simp [hreach3, hdead2]
    -- The height at `done` is that of the code before the jump, if that can be reached.
    generalize hδ : (if c1.reachable = true then c1.depth else -1) = δ at hdone
    have hknown : 0 ≤ δ → c.reachable = true ∧ δ = c.depth + (raise + raise2) := by
      intro hpos
      cases hc1 : c1.reachable with
      | true =>
        rw [if_pos hc1] at hδ
        have hc := hflow.reachable hc1
        exact ⟨hc, hδ ▸ hflow.depth hc hc1⟩
      | false =>
        rw [if_neg (by simp [hc1])] at hδ
        omega
    have hpos : c1.reachable = true → δ = c1.depth := fun hc1 => by rw [← hδ, if_pos hc1]
    have hawaits3 : c3.Awaits done δ need2 raise2 := by
      refine ⟨?_, ?_, fun hc3 hd => ?_, fun hd => ?_⟩
      · rw [Code.Open, hothers3 done (Ne.symm hne)]
        exact hdone
      · have := hready1.depth_le
        rw [← hδ]
        split <;> omega
      · have hd' := hlive3.mp hc3
        obtain ⟨hc, hheight⟩ := hknown hd
        have := hawaits.depth hc hd'
        rw [hknown3 hd']
        omega
      · obtain ⟨hc, hheight⟩ := hknown hd
        have := hneed hc
        omega
    have hlive3' : mode.head = none → c3.reachable = true := fun hhead =>
      hlive3.mpr (hjumped hhead trivial)
    have hneed3 : c3.reachable = true → need2 ≤ c3.depth := fun hc3 => by
      have hd := hlive3.mp hc3
      have := hawaits.need_le hd
      rw [hknown3 hd]
      omega
    have hjumped3 : mode.head = none → jumped → 0 ≤ δ := fun hhead _ => by
      rw [hpos (hlive1 hhead)]
      exact hready1.depth_nonneg (hlive1 hhead)
    obtain ⟨hready', hjoins, hlive', hrun⟩ := ht.step hrest hready3 (by simp) hawaits3 hjumped3
      hlive3' hneed3 hsize
    have hjoinsSize := hjoins.size_le
    refine ⟨hready', ⟨?_, ?_, ?_, ?_, ?_⟩, hlive', fun hgrows hmarks =>
      ⟨fun hc st s hst => ?_, fun hd => ⟨c3.body.size, ?_, ?_, fun st s hst => ?_⟩⟩⟩
    · intro l' info' hl' hlabel'
      simp only [mem_cons, not_mem_nil, or_false, not_or] at hl'
      refine hjoins.labels l' info' (by simpa using hl'.2) ?_
      rw [hothers3 l' hl'.1, hothers2 l' hl'.2]
      exact hflow.labels l' info' (by simp) hlabel'
    · omega
    · intro hdead hd
      refine hjoins.dead ?_ ?_
      · simp [hreach3, hdead2, hd]
      · simp [← hδ, hflow.dead hdead]
    · intro hc hc'
      cases hc3 : c3.reachable with
      | true =>
        have hd := hlive3.mp hc3
        rw [hjoins.depth hc3 hc', hknown3 hd, hawaits.depth hc hd]
        omega
      | false =>
        have hd : 0 ≤ δ := by
          by_contra hneg
          rw [hjoins.dead hc3 (by omega)] at hc'
          cases hc'
        rw [hjoins.depth_entered hd hc', (hknown hd).2]
        omega
    · intro hd hc'
      rw [hjoins.depth (hlive3.mpr hd) hc', hknown3 hd]
      omega
    · obtain ⟨-, hentered⟩ := hrun hgrows hmarks
      refine (hx.run hfirst hready hc (hneed hc) (hgrows1.trans hgrows) hmarks st s hst).bind
        hgrows1.size_le fun st1 s1 hc1 hst1 => ?_
      obtain ⟨p, hp, hplaced, hrealizes⟩ := hentered (hpos hc1 ▸ hready1.depth_nonneg hc1)
      have hins : M.code.body[c1.body.size]? = some ⟨.jump, done⟩ :=
        (hgrows2.trans hgrows).body_getElem? (by simp [hbody2])
      exact .after (Setting.runs_jump hins hplaced) (by omega)
        (hrealizes st1 s1 (by rw [hpos hc1, hst1]))
    · omega
    · refine Setting.placed_of_grows (hgrows3.trans hgrows) hlabel ?_
      rw [hposition, hbody3]
    · exact (hrun hgrows hmarks).1 (hlive3.mpr hd) st s (by rw [hknown3 hd, hst])

/-- A conditional jump and a tail make a longer tail. -/
theorem tail_branch (on keep : Bool) (need : Int) {raise1 : Int}
    (hx : Sim M mode x ctx ctx1 need1 count1 change1 action1)
    (ht : Tail M mode own l jumped t ctx1 ctx2 need2 count2 change2 raise1 action entered)
    (hraise : raise1 = if keep then 1 else 0) (hl : l ∉ own)
    (hneeds : need1 ≤ need ∧ 1 ≤ need + change1 ∧ need2 + 1 ≤ need + change1) :
    Tail M mode own l False (do x; branch on keep l; t) ctx ctx2 need (count1 + (1 + count2))
      (change1 - 1 + change2) (change1 - 1 + raise1)
      (fun st => action1 st >>= Action.branch on keep action entered) entered where
  growing := grows.bind hx.keeps.growing fun _ => grows.bind (growing_branch on keep l) fun _ =>
    ht.growing
  step marks c u c' d hyields hready hown hawaits _ hlive hneed' hsize := by
    obtain ⟨hneed1, hneed, hneed2⟩ := hneeds
    obtain ⟨_, c1, hfirst, h1⟩ := yields_bind.mp hyields
    obtain ⟨_, c2, hjump, hrest⟩ := yields_bind.mp h1
    have hgrows2 := ht.growing hrest
    have hgrows1 := (growing_branch on keep l hjump).trans hgrows2
    obtain ⟨hready1, hflow, hlive1⟩ := hx.keeps.step hfirst hready hlive
      (fun hc => Int.le_trans hneed1 (hneed' hc)) (Nat.le_trans hgrows1.size_le hsize)
    have hheight : c1.reachable = true → c1.depth = c.depth + change1 ∧ need ≤ c.depth :=
      fun hc1 => ⟨hflow.depth (hflow.reachable hc1) hc1, hneed' (hflow.reachable hc1)⟩
    have hpositive : c1.reachable = true → 1 ≤ c1.depth := fun hc1 => by
      obtain ⟨hdepth, hle⟩ := hheight hc1
      omega
    obtain ⟨hready2, hopen2, hothers2, hbody2, hreach2, hdepth2⟩ := ready_branch hjump hready1
      (hflow.labels l _ (by simp) hawaits.isOpen) hpositive (Nat.le_trans hgrows2.size_le hsize)
    have hsize2 : c2.body.size = c1.body.size + 1 := by simp [hbody2]
    -- The height at the label is that of this jump, if it can be reached, or else of one before.
    generalize hδ : (if c1.reachable = true then c1.depth - (if keep then 0 else 1) else d) = δ
      at hopen2
    have hhere : c1.reachable = true → δ = c2.depth + raise1 := fun hc1 => by
      rw [← hδ, if_pos hc1, hdepth2, hraise]
      split <;> omega
    have hbefore : 0 ≤ d → δ = d := fun hd => by
      cases hc1 : c1.reachable with
      | true =>
        have := hawaits.depth (hflow.reachable hc1) hd
        have := hhere hc1
        obtain ⟨hdepth, -⟩ := hheight hc1
        omega
      | false => rw [← hδ, if_neg (by simp [hc1])]
    have hdead : c1.reachable = false → δ = d := fun hc1 => by rw [← hδ, if_neg (by simp [hc1])]
    have hsizes : c.body.size + count1 ≤ c1.body.size := hflow.size_le
    have hawaits2 : c2.Awaits l δ need2 raise1 := by
      refine ⟨hopen2, ?_, fun hc2 _ => hhere (hreach2 ▸ hc2), fun hpos => ?_⟩
      · have := hawaits.le_size
        have := hready1.depth_le
        rw [← hδ]
        split <;> [split <;> omega; omega]
      · cases hc1 : c1.reachable with
        | true =>
          have := hhere hc1
          obtain ⟨hdepth, hle⟩ := hheight hc1
          omega
        | false =>
          rw [hdead hc1] at hpos ⊢
          have := hawaits.need_le hpos
          omega
    have hown2 : ∀ l' ∈ own, c2.Open l' (-1) := fun l' hl' => by
      rw [Code.Open, hothers2 l' fun heq => hl (heq ▸ hl')]
      exact hflow.labels l' _ (by simp) (hown l' hl')
    have hjumped2 : mode.head = none → jumped → 0 ≤ δ := fun hhead _ => by
      have := hpositive (hlive1 hhead)
      rw [hhere (hlive1 hhead), hdepth2, hraise]
      split <;> omega
    have hneed2' : c2.reachable = true → need2 ≤ c2.depth := fun hc2 => by
      obtain ⟨hdepth, hle⟩ := hheight (hreach2 ▸ hc2)
      omega
    obtain ⟨hready', hjoins, hlive', hrun⟩ := ht.step hrest hready2 hown2 hawaits2 hjumped2
      (fun hhead => hreach2.trans (hlive1 hhead)) hneed2' hsize
    have hjoinsSize := hjoins.size_le
    refine ⟨hready', ⟨?_, ?_, ?_, ?_, ?_⟩, hlive', fun hgrows hmarks =>
      ⟨fun hc st s hst => ?_, fun hd => ?_⟩⟩
    · intro l' info' hl' hlabel'
      refine hjoins.labels l' info' hl' ?_
      rw [hothers2 l' fun heq => hl' (by simp [heq])]
      exact hflow.labels l' info' (by simp) hlabel'
    · omega
    · intro hc hd
      have hc1 := hflow.dead hc
      exact hjoins.dead (hreach2.trans hc1) (by rw [hdead hc1]; exact hd)
    · intro hc hc'
      cases hc1 : c1.reachable with
      | true =>
        rw [hjoins.depth (hreach2.trans hc1) hc', hdepth2, (hheight hc1).1]
        omega
      | false =>
        have hd : 0 ≤ d := by
          by_contra hneg
          rw [hjoins.dead (hreach2.trans hc1) (by rw [hdead hc1]; omega)] at hc'
          cases hc'
        rw [hjoins.depth_entered (by rw [hdead hc1]; exact hd) hc', hdead hc1, hawaits.depth hc hd]
        omega
    · intro hd hc'
      rw [hjoins.depth_entered (by rw [hbefore hd]; exact hd) hc', hbefore hd]
      omega
    · obtain ⟨haction, hentered⟩ := hrun hgrows hmarks
      have hneed'' := hneed' hc
      refine (hx.run hfirst hready hc (by omega) (hgrows1.trans hgrows) hmarks st s hst).bind
        hgrows1.size_le fun st1 s1 hc1 hst1 => ?_
      have hpos := hpositive hc1
      have hδpos : 0 ≤ δ := by
        rw [hhere hc1, hdepth2, hraise]
        split <;> omega
      obtain ⟨p, hp, hplaced, hrealizes⟩ := hentered hδpos
      have hins : M.code.body[c1.body.size]? = some ⟨.branch on keep, l⟩ :=
        (hgrows2.trans hgrows).body_getElem? (by simp [hbody2])
      match st1, hst1 with
      | [], hst1 =>
        rw [← hst1] at hpos
        simp at hpos
      | v :: st2, hst1 =>
        have hruns := Setting.runs_branch hins hplaced v st2 s1
        rw [length_cons] at hst1
        rw [Action.branch, Perform.truthy_bind]
        split at hruns
        next htruth =>
          rw [if_pos htruth]
          refine .after hruns (by omega) (hrealizes _ s1 ?_)
          rw [hhere hc1, hdepth2, hraise, Action.carried]
          split
          · rw [length_cons]
            omega
          · omega
        next htruth =>
          rw [if_neg htruth]
          refine .after hruns (by omega) (hsize2 ▸ haction (hreach2.trans hc1) st2 s1 ?_)
          omega
    · obtain ⟨p, hp, hplaced, hrealizes⟩ := (hrun hgrows hmarks).2 (by rw [hbefore hd]; exact hd)
      rw [hbefore hd] at hrealizes
      exact ⟨p, by omega, hplaced, hrealizes⟩

/-- A choice between two ways. -/
theorem sim_choice {test yes no : Emit Unit} {ctx3 : Context} {count3 : Nat}
    {action3 : List Value → Perform (List Value)}
    (htest : Sim M mode test ctx ctx1 0 count1 1 action1)
    (hyes : Sim M mode yes ctx1 ctx2 0 count2 1 action2)
    (hno : Sim M mode no ctx2 ctx3 0 count3 1 action3) : Sim M mode (do
      let otherwise ← newLabel
      let done ← newLabel
      test
      jumpIfFalse otherwise
      yes
      jump done
      mark otherwise
      no
      mark done) ctx ctx3 0 count1 1
      fun st => action1 st >>= Action.branch false false action2 action3 := by
  have hsim : ∀ otherwise done : Label, otherwise ≠ done → SimOn M mode [done, otherwise] (do
      test
      branch false false otherwise
      yes
      jump done
      mark otherwise
      no
      mark done) ctx ctx3 0 (count1 + (1 + (count2 + count3))) (1 - 1 + (0 + 1))
      (fun st => action1 st >>= Action.branch false false action2 action3) := by
    intro otherwise done hne
    have hjoin : Tail M mode [done] otherwise True _ ctx1 ctx3 0 (count2 + count3) (0 + 1) 0
        (fun st => action2 st >>= pure) action3 :=
      tail_join hyes (tail_mark hno) hne (by omega)
    simp only [bind_pure] at hjoin
    exact (simOn_of_tail (tail_branch false false 0 htest hjoin rfl (by simpa using hne)
      (by omega))).mono (by simp)
  have hgrowing : ∀ otherwise done : Label, Growing (do
      test
      branch false false otherwise
      yes
      jump done
      mark otherwise
      no
      mark done) := fun otherwise done =>
    grows.bind htest.keeps.growing fun _ => grows.bind (growing_branch ..) fun _ =>
      grows.bind hyes.keeps.growing fun _ => grows.bind (grows.jumpAny _) fun _ =>
        grows.bind (grows.markAny _) fun _ => grows.bind hno.keeps.growing fun _ =>
          grows.markAny _
  exact (sim_of_simOn (simOn_newLabel (fun otherwise => grows.newLabel
    (hgrowing otherwise)) fun otherwise _ => simOn_newLabel (hgrowing otherwise) fun done hdone =>
      hsim otherwise done fun heq => hdone (by simp [heq]))).adjust (by omega) fun _ _ => rfl

end Tails

end Emit

end ExprBackend
