import ExprBackend.Proofs.CachedAnswers
import ExprBackend.Proofs.DispatchLoop
import ExprBackend.Proofs.Supply

/-! # The course of a generated loop

The code of a generated function starts with an empty stack at the top of its
loop, and so does the code of each action. The course of the whole is made of those
of the actions. Up to the jump by the current action nothing can be refused.
-/

namespace ExprBackend

open List

variable {c : Code} {hands rest : List (Label × Int)} {l : Label}

namespace Code

variable {c' : Code} {log : Log}

/-- The order of the labels at hand does not matter. -/
theorem Shows.perm {hands' : List (Label × Int)} (h : c.Shows hands) (hperm : hands.Perm hands') :
    c.Shows hands' := by
  have hmem : ∀ l, l ∈ hands'.map Prod.fst ↔ l ∈ hands.map Prod.fst := fun l =>
    (hperm.map Prod.fst).mem_iff.symm
  have haimed : ∀ {l}, c.Aimed hands l → c.Aimed hands' l := fun hl => hl.imp_left (hmem _).mpr
  refine ⟨h.outside, h.normal, fun l d hl => h.waiting l d (hperm.mem_iff.mpr hl),
    (hperm.map Prod.fst).nodup_iff.mp h.distinct, fun l hl => ⟨(h.loop l hl).1, fun hin => ?_⟩,
    fun i hi hjump => haimed (h.aims i hi hjump), fun t ht l hl => haimed (h.tabled t ht l hl),
    h.straight, h.single⟩
  exact (h.loop l hl).2 ((hmem l).mp hin)

/-- What becomes of a buffer in which all instructions that can be reached find their operands. -/
structure Leads (c c' : Code) : Prop where
  name : c'.name = c.name
  paramCount : c'.paramCount = c.paramCount
  locals : c.locals.length ≤ c'.locals.length
  interceptor : c'.interceptor = c.interceptor
  size : c.body.size ≤ c'.body.size
  room : c.prologue.size ≤ c'.prologue.size
  kept : c'.prologue.size + c'.body.size ≤ 65535 → c.Kept → c'.Kept

theorem Leads.trans {c'' : Code} (h : c.Leads c') (h' : c'.Leads c'') : c.Leads c'' where
  name := h'.name.trans h.name
  paramCount := h'.paramCount.trans h.paramCount
  locals := Nat.le_trans h.locals h'.locals
  interceptor := h'.interceptor.trans h.interceptor
  size := Nat.le_trans h.size h'.size
  room := Nat.le_trans h.room h'.room
  kept hroom hkept := by
    have := h'.size
    have := h'.room
    exact h'.kept hroom (h.kept (by omega) hkept)

theorem Moves.leads (h : c.Moves c' log) (hfed : log.fed = true) : c.Leads c' where
  name := h.name
  paramCount := h.paramCount
  locals := h.locals
  interceptor := h.interceptor
  size := Nat.le_trans (Nat.le_add_right _ _) h.size
  room := h.room
  kept := h.kept hfed

/-- The top of the loop is placed where the stack is empty. -/
def Looping (l : Label) (c : Code) : Prop := c.loop? = some l ∧ ∃ p, c.label? l = some ⟨some p, 0⟩

theorem Looping.moves (h : c.Looping l) (hmoves : c.Moves c' log) : c'.Looping l := by
  obtain ⟨hloop, p, hlabel⟩ := h
  exact ⟨hmoves.loop l hloop, p, (hmoves.atop l p hloop hlabel).1⟩

end Code

namespace Emit

variable {marks : Marks} {d : Int}

/-! ## Up to the jump by the current action -/

theorem run_newLabels (marks : Marks) (count : Nat) (hc : c.Shows hands) :
    ∃ ls c', (newLabels count marks c : Except Failure (List Label) × Code) = (.ok ls, c') ∧
      ls.length = count ∧ c'.Shows (ls.map (·, -1) ++ hands) ∧ c.Moves c' .empty ∧
      c'.standing = c.standing := by
  induction count generalizing c hands with
  | zero =>
    exact ⟨[], c, rfl, rfl, hc, (Code.Alike.noted c c.emitting c.events c.observations).moves, rfl⟩
  | succ count ih =>
    obtain ⟨ls, c', hrun, hlength, hshows, hmoves, hstanding⟩ := ih (shows_labelled hc)
    refine ⟨c.labels.size :: ls, c', ?_, by rw [length_cons, hlength], hshows.perm ?_, ?_,
      hstanding⟩
    · rw [newLabels, run_bind]
      change ((newLabels count >>= fun ls => pure (_ :: ls)) marks c.labelled :
        Except Failure (List Label) × Code) = _
      rw [run_bind, hrun]
      rfl
    · exact perm_middle
    · have htrans := (moves_labelled c).trans hmoves
      rwa [Log.empty_append] at htrans

/-- A label becomes known that nothing has jumped to. -/
theorem run_branchTo_first (marks : Marks) (hd : height d = d) (before : List (Label × Int))
    (hc : c.Shows (before ++ (l, -1) :: rest)) (hlive : c.reachable = true) :
    ∃ c', (branchTo l d marks c : Except Failure Unit × Code) = (.ok (), c') ∧
      c'.Shows (before ++ (l, d) :: rest) ∧ c' = { c with labels := c'.labels } ∧
      ∀ l, c.loop? = some l → c'.label? l = c.label? l := by
  have hlabel := (waiting_hand hc).1
  let c1 : Code := { c with labels := recorded c l d }
  have hgrown : c1 = c.grown (recorded c l d) #[] c.depth c.maxDepth c.reachable := by
    simp [c1, Code.grown]
  have hlabels : c1.labels = recorded c l d := rfl
  obtain ⟨hsame, hother⟩ := label?_recorded hlabels hlabel
  rw [if_pos hlive] at hsame
  refine ⟨c1, ?_, ?_, rfl, fun l' hl' => hother l' ?_⟩
  · rw [branchTo_hand hlabel, if_neg fun h => by omega]
  · rw [hgrown] at hsame hother ⊢
    exact shows_hand hc hc.normal hd hsame hother (by simp)
  · rintro rfl
    exact (hc.loop l' hl').2 (by simp)

/-- A label at hand is a label. -/
theorem ne_none_of_hand {known : Int} {before : List (Label × Int)}
    (hc : c.Shows (before ++ (l, known) :: rest)) : l ≠ Label.none := by
  rintro rfl
  have := (Code.lt_of_label? (waiting_hand hc).1).1
  simp [Label.none] at this

/-- All labels of a list become known. -/
theorem run_branchToAll (marks : Marks) (hd : height d = d) (ls : List Label)
    (before : List (Label × Int)) (hc : c.Shows (before ++ (ls.map (·, -1) ++ rest)))
    (hlive : c.reachable = true) :
    ∃ c', (branchToAll d ls marks c : Except Failure Unit × Code) = (.ok (), c') ∧
      c'.Shows (before ++ (ls.map (·, d) ++ rest)) ∧ c' = { c with labels := c'.labels } ∧
      ∀ l, c.loop? = some l → c'.label? l = c.label? l := by
  induction ls generalizing c before with
  | nil => exact ⟨c, rfl, hc, rfl, fun _ _ => rfl⟩
  | cons l ls ih =>
    obtain ⟨c1, hrun, hshows, heq1, hloop1⟩ := run_branchTo_first marks hd before hc hlive
    rw [append_cons] at hshows
    have hlive1 : c1.reachable = true := by
      rw [heq1]
      exact hlive
    obtain ⟨c', hrest, hend, heq, hloop⟩ := ih (before ++ [(l, d)]) hshows hlive1
    refine ⟨c', ?_, ?_, ?_, fun l' hl' => (hloop l' ?_).trans (hloop1 l' hl')⟩
    · rw [branchToAll, if_pos (ne_none_of_hand hc)]
      change ((branchTo l d >>= fun _ => branchToAll d ls) marks c : Except Failure Unit × Code) = _
      rw [run_bind, hrun]
      exact hrest
    · rw [← append_cons] at hend
      exact hend
    · rw [heq, heq1]
    · rw [heq1]
      exact hl'

/-- A jump table makes all its labels known. -/
theorem run_jumpTable (marks : Marks) {ls : List Label} {default : Label}
    (hc : c.Shows (ls.map (·, -1) ++ (default, -1) :: rest)) (hlive : c.reachable = true)
    (hdepth : c.depth = 1) :
    ∃ c', (jumpTable ls default marks c : Except Failure Unit × Code) = (.ok (), c') ∧
      c'.Shows (ls.map (·, 0) ++ (default, 0) :: rest) ∧ c'.standing = ⟨0, false⟩ ∧ c.Leads c' ∧
      ∀ l, c.Looping l → c'.Looping l := by
  let c1 := c.appended .jumpTable c.tables.length (-1)
  have hdepth1 : c1.depth = 0 := by
    change height (c.depth + -1) = 0
    rw [hdepth]
    rfl
  have hgrown1 : c1 = c.grown c.labels #[⟨.jumpTable, c.tables.length⟩] (height (c.depth + -1))
      (max c.maxDepth (height (c.depth + -1))) c.reachable := by
    simp [c1, Code.appended, Code.grown]
  have hc1 : c1.Shows ([] ++ (ls.map (·, -1) ++ (default, -1) :: rest)) := by
    rw [hgrown1]
    exact hc.grown (height_height _) (by simp [Opcode.isJump])
  have hzero : height 0 = 0 := rfl
  obtain ⟨c2, hall, hc2, heq2, hloop2⟩ := run_branchToAll marks hzero ls [] hc1 hlive
  have hlive2 : c2.reachable = true := by
    rw [heq2]
    exact hlive
  have hdepth2 : c2.depth = 0 := by
    rw [heq2]
    exact hdepth1
  obtain ⟨c3, hdefault, hc3, heq3, hloop3⟩ :=
    run_branchTo_first marks hzero (ls.map (·, 0)) hc2 hlive2
  let c' : Code := { c3 with tables := c3.tables ++ [⟨ls, default⟩], reachable := false }
  have hsame : c' = { c1 with
      labels := c3.labels, tables := c.tables ++ [⟨ls, default⟩], reachable := false } := by
    simp only [c']
    rw [heq3, heq2]
    rfl
  have hrun : (jumpTable ls default marks c : Except Failure Unit × Code) = (.ok (), c') := by
    rw [jumpTable, run_get_bind, hc.outside, if_neg Bool.false_ne_true]
    dsimp only
    have happend : (append .jumpTable c.tables.length (-1) marks c : Except Failure Unit × Code) =
        (.ok (), c1) := rfl
    rw [run_get_bind, run_bind, happend]
    dsimp only
    rw [run_get_bind, hdepth1, run_bind, hall]
    dsimp only
    rw [run_get_bind, hdepth2, run_bind, hdefault]
    rfl
  refine ⟨c', hrun, ?_, ?_, ?_, ?_⟩
  · refine ⟨hc3.outside, hc3.normal, hc3.waiting, hc3.distinct, hc3.loop, hc3.aims,
      fun t ht l hl => ?_, hc3.straight, hc3.single⟩
    rcases mem_append.mp ht with ht | ht
    · exact hc3.tabled t ht l hl
    · cases mem_singleton.mp ht
      left
      rcases mem_cons.mp hl with rfl | hl
      · simp
      · simp [hl]
  · rw [hsame]
    exact congrArg (Standing.mk · false) hdepth1
  · refine ⟨by rw [hsame]; rfl, by rw [hsame]; rfl, by rw [hsame]; exact Nat.le_refl _,
      by rw [hsame]; rfl, by rw [hsame]; simp [c1], by rw [hsame]; exact Nat.le_refl _,
      fun hroom hkept => ?_⟩
    obtain ⟨mine, before, hsound⟩ := hkept
    have hprologue : c'.prologue = c.prologue := by
      rw [hsame]
      rfl
    have hbody : c'.body.size = c.body.size + 1 := by
      rw [hsame]
      simp [c1]
    refine ⟨mine ++ [c.standing], before, ?_⟩
    rw [hprologue]
    refine hsound.jumpTable (by omega) ?_ (fun _ => by omega) hrun
    rw [Array.length_toList]
    rw [hprologue, hbody] at hroom
    omega
  · rintro l ⟨hloop, p, hlabel⟩
    have hloop1 : c1.loop? = some l := hloop
    have hloop2' : c2.loop? = some l := by
      rw [heq2]
      exact hloop
    refine ⟨by rw [hsame]; exact hloop, p, ?_⟩
    exact (hloop3 l hloop2').trans ((hloop2 l hloop1).trans hlabel)

/-- The top of the loop is placed where the stack is empty. -/
theorem run_mark_loop (marks : Marks) (hc : c.Shows []) (hloop : c.loop? = some l)
    (hlabel : c.label? l = some ⟨none, -1⟩) (hstanding : c.standing = ⟨0, true⟩) :
    ∃ c', (mark l marks c : Except Failure Unit × Code) = (.ok (), c') ∧ c'.Shows [] ∧
      c'.standing = ⟨0, true⟩ ∧ c'.Looping l ∧ c.Leads c' := by
  have hlive : c.reachable = true := congrArg Standing.reachable hstanding
  have hdepth : c.depth = 0 := congrArg Standing.depth hstanding
  obtain ⟨_, hrun⟩ := run_mark_hand marks hc.outside hlabel
  rw [if_neg fun h => by omega] at hrun
  have hplaced : (c.marked l ⟨none, -1⟩).label? l =
      some ⟨some c.body.size, if c.reachable then c.depth else -1⟩ :=
        Code.label?_set_same rfl hlabel
  rw [if_pos hlive, hdepth] at hplaced
  have hother : ∀ l', l' ≠ l → (c.marked l ⟨none, -1⟩).label? l' = c.label? l' := fun l' hne =>
    Code.label?_set_other rfl hne (Code.lt_of_label? hlabel).1
  have hgrown : c.marked l ⟨none, -1⟩ = c.grown (c.marked l ⟨none, -1⟩).labels #[]
      c.depth c.maxDepth c.reachable := by
    simp [Code.marked, Code.grown, hlive]
  refine ⟨_, hrun, ?_, ?_, ⟨hloop, _, hplaced⟩, ?_⟩
  · rw [hgrown]
    refine Code.shows_grown hc hc.normal (fun _ _ hl => absurd hl not_mem_nil) nodup_nil
      (fun l' info hl' hinfo => ⟨?_, not_mem_nil⟩) (fun l' info hinfo h => ?_)
      (fun i hi => by simp at hi)
    · rw [← hgrown]
      obtain rfl : l = l' := Option.some_inj.mp (hloop.symm.trans hl')
      exact ⟨_, hplaced⟩
    · rw [← hgrown]
      right
      by_cases heq : l' = l
      · subst heq
        exact ⟨_, hplaced, rfl⟩
      · rw [hother l' heq]
        exact ⟨info, hinfo, h.resolve_right not_mem_nil⟩
  · rw [hgrown]
    exact hstanding
  · refine ⟨rfl, rfl, Nat.le_refl _, rfl, Nat.le_refl _, Nat.le_refl _, fun _ hkept => ?_⟩
    obtain ⟨mine, before, hsound⟩ := hkept
    exact ⟨mine, before, hsound.marked hc.outside hlabel fun _ hknown => absurd hknown (by decide)⟩

/-- Makes the root the first pair and places the top of the loop, with a cache or without. -/
def begin (root : Value) (cache : Option Nat) (volatile : List Text) : Emit (Nat × Nat) := do
  let action ← localSlot actionName
  let argument ← localSlot argumentName
  if let some id := cache then attach id volatile
  loadConst root
  unpack 2
  storeLocal action
  storeLocal argument
  mark (← namedLabel loopLabel)
  return (action, argument)

theorem interpreter_eq_begin (root : Value) (paramCount : Nat) (cache : Option Nat)
    (table : ActionTable) :
    interpreter root paramCount cache table = (do
      let (action, argument) ← begin root cache table.volatileNames
      let (exit, targets, invalid) ← fork action table.size
      leaving exit argument paramCount
      actions targets table.actions.toList
      refusal invalid action argument
      let p ← program
      report (.generated p.name p.chunk)
      return p) := by
  cases cache <;> simp only [interpreter, begin, fork, leaving, refusal, bind_assoc, pure_bind]

/-- A new buffer has no labels at hand, and nothing in it lacks operands. -/
theorem shows_create (name : Text) (params : List Text) : (Code.create name params).Shows [] := by
  obtain ⟨locals, heq⟩ := Code.exists_create_eq name params
  rw [heq]
  exact ⟨rfl, rfl, nofun, nodup_nil, nofun, nofun, nofun, nofun, nofun⟩

theorem kept_create (name : Text) (params : List Text) : (Code.create name params).Kept := by
  obtain ⟨locals, heq⟩ := Code.exists_create_eq name params
  have hsound := Code.sound_create 1 name params
  rw [heq] at hsound ⊢
  exact ⟨[], [], hsound⟩

/-- A cache is attached to a buffer that has none. -/
theorem run_attach (marks : Marks) (id : Nat) (names : List Text) (hc : c.Shows hands)
    (hregions : c.regions = []) (hscratch : c.scratch = []) (hinterceptor : c.interceptor = none) :
    ∃ c', (attach id names marks c : Except Failure Unit × Code) = (.ok (), c') ∧ c'.Shows hands ∧
      c'.standing = c.standing ∧ c'.name = c.name ∧ c'.paramCount = c.paramCount ∧
      c'.locals = c.locals ∧ c'.namedLabels = c.namedLabels ∧ c'.interceptor = some (.cache id) ∧
      c'.chunk = c.chunk ∧ (c.Kept → c'.Kept) := by
  let r : Region := { ordinal := 0 }
  let c1 := (c.setScratch regionCountKey (.count 1)).setRegion id r
  have hregion : (region id marks c : Except Failure Region × Code) = (.ok r, c1) := by
    rw [region, run_get_bind, hregions]
    change ((get >>= _ : Emit Region) marks c : Except Failure Region × Code) = _
    rw [run_get_bind, hscratch]
    rfl
  have hnone : c1.interceptor = none := hinterceptor
  refine ⟨_, attach_of_region hregion names, ?_, rfl, rfl, rfl, rfl, rfl, rfl, rfl, fun hkept => ?_⟩
  · refine ⟨hc.outside, hc.normal, hc.waiting, hc.distinct, hc.loop, hc.aims,
      hc.tabled, hc.straight, fun first hfirst => ?_⟩
    cases hfirst
    refine ⟨id, rfl, fun found hfound => ?_⟩
    rw [hnone] at hfound
    change (c1.setRegion id _).regions.lookup id = some found at hfound
    rw [lookup_setRegion, if_pos rfl] at hfound
    cases hfound
    rfl
  · obtain ⟨mine, before, hsound⟩ := hkept
    exact ⟨mine, before, hsound.of_eq rfl rfl rfl rfl rfl rfl rfl⟩

/-- The root becomes the first pair, and the top of the loop is placed. -/
theorem run_rootPair (marks : Marks) (root : Value) (action argument : Nat) (hc : c.Shows [])
    (hstanding : c.standing = ⟨0, true⟩) (hnamed : c.namedLabels = [])
    (hpool : c.chunk.constants.size < 65536) :
    ∃ l c', ((do
        loadConst root
        unpack 2
        storeLocal action
        storeLocal argument
        mark (← namedLabel loopLabel)
        return (action, argument) : Emit (Nat × Nat)) marks c : Except Failure (Nat × Nat) × Code) =
          (.ok (action, argument), c') ∧
      c'.Shows [] ∧ c'.standing = ⟨0, true⟩ ∧ c'.Looping l ∧ c.Leads c' := by
  let stores : Emit Unit := do
    loadConst root
    unpack 2
    storeLocal action
    storeLocal argument
  have hplain : Follows [] stores (do
      Course.step 0 1
      Course.step 1 1
      Course.step 1 (-1)
      Course.step 1 (-1)) fun _ _ => [] := by
    refine (follows_loadConst root).bind fun _ _ => ?_
    refine Follows.bind (follows_plain rfl) fun _ _ => ?_
    refine Follows.bind (follows_plain rfl) fun _ _ => ?_
    exact follows_plain rfl
  have hroom : (c.pooled root).chunk.constants.size ≤ max c.chunk.constants.size 65536 := by
    have : (c.pooled root).chunk.constants.size ≤ c.chunk.constants.size + 1 :=
      Chunk.size_addConstant_le
    omega
  obtain ⟨c1, hrun1, hnamed1⟩ : ∃ c1, (stores marks c : Except Failure Unit × Code) = (.ok (), c1) ∧
      c1.namedLabels = [] := by
    simp only [stores, loadConst, bind_assoc]
    rw [run_bind, run_addConstant, if_pos hroom]
    exact ⟨_, rfl, hnamed⟩
  have hfollows := hplain marks c hc
  rw [hrun1, hstanding] at hfollows
  obtain ⟨⟨⟩, log, hcourse, hc1, hmoves⟩ := hfollows
  have hend : some ((), (⟨0, true⟩ : Standing), (⟨4, true, []⟩ : Log)) =
      some ((), c1.standing, log) := hcourse
  simp only [Option.some.injEq, Prod.mk.injEq, true_and] at hend
  obtain ⟨hstanding1, rfl⟩ := hend
  have hnew : c1.namedLabels.lookup loopLabel = none := by
    rw [hnamed1]
    rfl
  obtain ⟨l, c2, hrun2, hc2, hloop2, hmoves2, hstanding2⟩ := run_namedLabel_loop marks hc1
  obtain ⟨rfl, heq2⟩ := namedLabel_of_yields hrun2 hnew
  have hlabel : c2.label? c1.labels.size = some ⟨none, -1⟩ := by
    rw [heq2]
    exact c1.label?_labelled_new
  obtain ⟨c', hrun', hshows, hstanding', hlooping, hleads⟩ :=
    run_mark_loop marks hc2 hloop2 hlabel (hstanding2.trans hstanding1.symm)
  refine ⟨_, c', ?_, hshows, hstanding', hlooping,
    ((hmoves.leads rfl).trans (hmoves2.leads rfl)).trans hleads⟩
  have hassoc : (do
      loadConst root
      unpack 2
      storeLocal action
      storeLocal argument
      mark (← namedLabel loopLabel)
      return (action, argument) : Emit (Nat × Nat)) = (do
        stores
        mark (← namedLabel loopLabel)
        return (action, argument)) := by
    simp only [stores, bind_assoc]
  rw [hassoc, run_bind, hrun1]
  dsimp only
  rw [run_bind, hrun2]
  dsimp only
  rw [run_bind, hrun']
  rfl

/-- The start of the code cannot be refused. -/
theorem run_begin (marks : Marks) (root : Value) (cache : Option Nat) (volatile : List Text)
    (name : Text) (params : List Text) :
    ∃ slots l c', (begin root cache volatile marks (Code.create name params) :
        Except Failure (Nat × Nat) × Code) = (.ok slots, c') ∧ c'.Shows [] ∧
      c'.standing = ⟨0, true⟩ ∧ c'.Looping l ∧ c'.name = name ∧ c'.paramCount = params.length ∧
      (Code.create name params).locals.length ≤ c'.locals.length ∧
      c'.interceptor = cache.map .cache ∧ (c'.prologue.size + c'.body.size ≤ 65535 → c'.Kept) := by
  let c0 := Code.create name params
  let c1 := (c0.declared actionName).declared argumentName
  have halike : c0.Alike c1 :=
    (Code.Alike.declared c0 actionName).trans (.declared (c0.declared actionName) argumentName)
  have heq : c1 = { c0 with locals := c1.locals } := by
    simp only [c1]
    rw [Code.declared_eq (c0.declared actionName), Code.declared_eq c0]
  obtain ⟨locals, hcreate⟩ := Code.exists_create_eq name params
  have hfields : c1.regions = [] ∧ c1.scratch = [] ∧ c1.interceptor = none ∧ c1.namedLabels = [] ∧
      c1.name = name ∧ c1.paramCount = params.length ∧ c1.standing = ⟨0, true⟩ ∧
      c1.chunk.constants.size = 0 := by
    have hc0 : c0 = { name, paramCount := params.length, locals } := hcreate
    rw [heq, hc0]
    exact ⟨rfl, rfl, rfl, rfl, rfl, rfl, rfl, rfl⟩
  obtain ⟨hregions, hscratch, hinterceptor, hnamed, hname, hcount, hstanding, hpool⟩ := hfields
  have hc1 := halike.shows (shows_create name params)
  have hkept := halike.kept (kept_create name params)
  cases cache with
  | none =>
    obtain ⟨l, c', hrun, hshows, hstanding', hlooping, hleads⟩ := run_rootPair marks root
      (c0.declaredSlot actionName) ((c0.declared actionName).declaredSlot argumentName) hc1
      hstanding hnamed (by omega)
    refine ⟨(_, _), l, c', hrun, hshows, hstanding', hlooping, hleads.name.trans hname,
      hleads.paramCount.trans hcount, Nat.le_trans halike.locals hleads.locals,
      hleads.interceptor.trans hinterceptor, fun hroom => hleads.kept hroom hkept⟩
  | some id =>
    obtain ⟨c2, hrun2, hc2, hstanding2, hname2, hcount2, hlocals2, hnamed2, hinterceptor2, hchunk2,
      hkept2⟩ :=
      run_attach marks id volatile hc1 hregions hscratch hinterceptor
    obtain ⟨l, c', hrun, hshows, hstanding', hlooping, hleads⟩ := run_rootPair marks root
      (c0.declaredSlot actionName) ((c0.declared actionName).declaredSlot argumentName) hc2
      (hstanding2.trans hstanding) (hnamed2.trans hnamed) (by rw [hchunk2]; omega)
    refine ⟨(c0.declaredSlot actionName, (c0.declared actionName).declaredSlot argumentName), l, c',
      ?_, hshows, hstanding', hlooping, hleads.name.trans (hname2.trans hname),
      hleads.paramCount.trans (hcount2.trans hcount), ?_, hleads.interceptor.trans hinterceptor2,
      fun hroom => hleads.kept hroom (hkept2 hkept)⟩
    · change ((attach id volatile >>= fun _ => _) marks c1 : Except Failure (Nat × Nat) × Code) = _
      rw [run_bind, hrun2]
      exact hrun
    · have hlocals := halike.locals
      rw [← hlocals2] at hlocals
      exact Nat.le_trans hlocals hleads.locals

/-- The jump by the current action cannot be refused. -/
theorem run_fork (marks : Marks) (action count : Nat) (hc : c.Shows [])
    (hstanding : c.standing = ⟨0, true⟩) :
    ∃ exit targets invalid c', (fork action count marks c :
        Except Failure (Label × List Label × Label) × Code) = (.ok (exit, targets, invalid), c') ∧
      targets.length = count ∧ c'.Shows ((exit :: targets).map (·, 0) ++ [(invalid, 0)]) ∧
      c'.standing = ⟨0, false⟩ ∧ c.Leads c' ∧ ∀ l, c.Looping l → c'.Looping l := by
  obtain ⟨targets, c2, hrun2, hlength, hc2, hmoves2, hstanding2⟩ :=
    run_newLabels marks count (shows_labelled hc)
  have hc3 : c2.labelled.Shows (((c.labels.size : Int) :: targets).map (·, -1) ++
      [((c2.labels.size : Int), -1)]) := by
    refine (shows_labelled hc2).perm ?_
    have hcomm : ([((c2.labels.size : Int), (-1 : Int))] ++ (targets.map (·, -1) ++
        [((c.labels.size : Int), -1)])).Perm _ := perm_append_comm
    exact hcomm.trans (perm_append_comm.append_right _)
  let c4 := c2.labelled.appended .loadLocal action 1
  have hrun4 : (loadLocal action marks c2.labelled : Except Failure Unit × Code) = (.ok (), c4) :=
    rfl
  have hfollows := follows_loadLocal action marks c2.labelled hc3
  rw [hrun4] at hfollows
  obtain ⟨⟨⟩, log, hcourse, hc4, hmoves4⟩ := hfollows
  have hstanding3 : c2.labelled.standing = ⟨0, true⟩ := hstanding2.trans hstanding
  rw [hstanding3] at hcourse
  have hend : some ((), (⟨1, true⟩ : Standing), (⟨1, true, []⟩ : Log)) =
      some ((), c4.standing, log) :=
    hcourse
  simp only [Option.some.injEq, Prod.mk.injEq, true_and] at hend
  obtain ⟨hstanding4, rfl⟩ := hend
  obtain ⟨c', hrun', hshows, hstanding', hleads, hlooping⟩ := run_jumpTable marks hc4
    (congrArg Standing.reachable hstanding4.symm) (congrArg Standing.depth hstanding4.symm)
  have hmoves := ((moves_labelled c).trans hmoves2).trans ((moves_labelled c2).trans hmoves4)
  refine ⟨c.labels.size, targets, c2.labels.size, c', ?_, hlength, hshows, hstanding',
    (hmoves.leads rfl).trans hleads, fun l hl => hlooping l (hl.moves hmoves)⟩
  have hnew : ∀ c : Code, (newLabel marks c : Except Failure Label × Code) =
      (.ok (c.labels.size : Int), c.labelled) := fun _ => rfl
  rw [fork, run_bind, hnew]
  dsimp only
  rw [run_bind, hrun2]
  dsimp only
  rw [run_bind, hnew]
  dsimp only
  rw [run_bind, hrun4]
  dsimp only
  rw [run_bind, hrun']
  rfl

/-! ## Behind the jump -/

/-- Code that ends the activation. -/
theorem follows_end {op : Opcode} (hop : op = .ret ∨ op = .invalidAction) :
    Follows hands (do append op 0 (-1); endReach) (do Course.step 1 (-1); Course.halt)
      fun _ _ => hands := by
  intro marks c hc
  have hplain : op.isJump = false ∧ op ≠ .jumpTable ∧ op.falls = false ∧ op.reads 0 = 1 ∧
      op.change 0 = -1 ∧ op.width = 0 := by
    rcases hop with rfl | rfl <;> exact ⟨rfl, nofun, rfl, rfl, rfl, rfl⟩
  obtain ⟨hjump, htable, hfalls, hreads, hchange, hwidth⟩ := hplain
  have hgrown : (c.appended op 0 (-1)).ended = c.grown c.labels #[⟨op, 0⟩] (height (c.depth + -1))
      (max c.maxDepth (height (c.depth + -1))) false := by
    simp [Code.appended, Code.ended, Code.grown]
  have hcourse : (do Course.step 1 (-1); Course.halt : Course Unit) c.standing = some ((),
      (c.appended op 0 (-1)).ended.standing, ⟨1, !c.reachable || decide (1 ≤ c.depth), []⟩) := by
    rw [← Log.append_empty ⟨1, !c.reachable || decide (1 ≤ c.depth), []⟩]
    exact Course.bind_leads rfl rfl
  refine ⟨(), _, hcourse, ?_, ?_⟩
  · change (c.appended op 0 (-1)).ended.Shows hands
    rw [hgrown]
    exact hc.grown (height_height _) (by simp [hjump])
  · change c.Moves (c.appended op 0 (-1)).ended _
    rw [hgrown]
    refine Code.moves_grown (fun l info hinfo _ => hinfo) (·.pushed hjump htable)
      fun hfed hroom hkept => ?_
    obtain ⟨mine, before, hsound⟩ := hkept
    rw [← hgrown]
    refine ⟨mine ++ [c.standing], before, hsound.appended_ended hfalls fun hlive => ?_⟩
    refine Code.admits_plain hjump htable ?_ ?_ (by omega)
    · rw [hwidth]
      change ((op.reads 0 : Nat) : Int) ≤ c.depth
      rw [hreads]
      simpa [hlive] using hfed
    · rw [hwidth]
      exact hchange.symm

end Emit

namespace Course

/-- The course along code that pushes several slots. -/
def slots : Nat → Course Unit
  | 0 => pure ()
  | count + 1 => do
    step 0 1
    slots count

def leaving (paramCount : Nat) : Course Unit := do
  place 0
  step 0 1
  slots paramCount
  step (paramCount + 1) (-paramCount)
  step 1 (-1)
  halt

def actions : List Node → Course Unit
  | [] => pure ()
  | n :: rest => do
    place 0
    n.course
    reach transfer
    actions rest

def refusal : Course Unit := do
  place 0
  step 0 1
  step 0 1
  step 2 (-1)
  step 1 (-1)
  halt

def loop (paramCount : Nat) (ns : List Node) : Course Unit := do
  leaving paramCount
  actions ns
  refusal

end Course

namespace Emit

variable {targets : List Label} {ns : List Node}

theorem follows_loadSlots (first count : Nat) :
    Follows hands (loadSlots first count) (Course.slots count) fun _ _ => hands := by
  induction count generalizing first with
  | zero => exact follows_pure rfl
  | succ count ih => exact (follows_loadLocal _).bind fun _ _ => ih _

theorem follows_leaving (exit : Label) (argument paramCount : Nat) :
    Follows ((exit, 0) :: hands) (leaving exit argument paramCount) (Course.leaving paramCount)
      fun _ _ => hands := by
  refine Follows.bind (follows_mark [] exit 0) fun _ _ => ?_
  refine (follows_loadLocal _).bind fun _ _ => (follows_loadSlots 0 _).bind fun _ _ => ?_
  refine Follows.bind (follows_counted rfl nofun rfl (by omega) (by omega) rfl rfl) fun _ _ => ?_
  exact follows_end (.inl rfl)

theorem follows_refusal (invalid : Label) (action argument : Nat) :
    Follows ((invalid, 0) :: hands) (refusal invalid action argument) Course.refusal
      fun _ _ => hands := by
  refine Follows.bind (follows_mark [] invalid 0) fun _ _ => ?_
  refine (follows_loadLocal _).bind fun _ _ => (follows_loadLocal _).bind fun _ _ => ?_
  refine Follows.bind (follows_plain rfl) fun _ _ => ?_
  exact follows_end (.inr rfl)

theorem follows_actions (h : targets.length = ns.length) :
    Follows (targets.map (·, 0) ++ rest) (actions targets ns)
      (Course.actions ns) fun _ _ => rest := by
  induction ns generalizing targets with
  | nil =>
    obtain rfl := length_eq_zero_iff.mp h
    exact follows_pure rfl
  | cons n others ih =>
    obtain ⟨target, targets, rfl⟩ := exists_cons_of_length_eq_add_one h
    rw [actions_cons]
    refine Follows.bind (follows_mark [] target 0) fun _ _ => ?_
    refine (n.onCourse _).bind fun _ _ => ?_
    exact (follows_reach follows_transfer).bind fun _ _ => ih (Nat.succ.inj h)

/-- The code behind the jump follows its course. -/
theorem follows_loop {exit invalid : Label} (action argument paramCount : Nat)
    (h : targets.length = ns.length) : Follows ((exit :: targets).map (·, 0) ++ [(invalid, 0)]) (do
      leaving exit argument paramCount
      actions targets ns
      refusal invalid action argument) (Course.loop paramCount ns) fun _ _ => [] :=
  (follows_leaving exit argument paramCount).bind fun _ _ => (follows_actions h).bind fun _ _ =>
    follows_refusal invalid action argument

def finish : Emit Program := do
  let p ← program
  report (.generated p.name p.chunk)
  return p

/-- What becomes of a generated function is settled by the course behind the jump, and by the
assembly. -/
theorem run_interpreter (marks : Marks) (root : Value) (cache : Option Nat) (t : ActionTable)
    (name : Text) (params : List Text) :
    ∃ l c, c.Looping l ∧ c.name = name ∧ c.paramCount = params.length ∧
      (Code.create name params).locals.length ≤ c.locals.length ∧
      c.interceptor = cache.map .cache ∧
      (c.prologue.size + c.body.size ≤ 65535 → c.Kept) ∧
      ∃ outcome : Except Failure Unit × Code,
        Meets c (Course.loop params.length t.actions.toList ⟨0, false⟩) (fun _ _ => []) outcome ∧
        (interpreter root params.length cache t marks (Code.create name params) :
            Except Failure Program × Code) =
          match outcome with
          | (.ok _, c') => finish marks c'
          | (.error failure, c') => (.error failure, c') := by
  obtain ⟨⟨action, argument⟩, l, c1, hbegin, hc1, hstanding1, hlooping1, hname1, hcount1, hlocals1,
    hinterceptor1, hkept1⟩ := run_begin marks root cache t.volatileNames name params
  obtain ⟨exit, targets, invalid, c2, hfork, hlength, hc2, hstanding2, hleads2, hlooping2⟩ :=
    run_fork marks action t.size hc1 hstanding1
  refine ⟨l, c2, hlooping2 l hlooping1, hleads2.name.trans hname1, hleads2.paramCount.trans hcount1,
    Nat.le_trans hlocals1 hleads2.locals, hleads2.interceptor.trans hinterceptor1,
    fun hroom => ?_, ?_⟩
  · have := hleads2.size
    have := hleads2.room
    exact hleads2.kept hroom (hkept1 (by omega))
  let behind : Emit Unit := do
    leaving exit argument params.length
    actions targets t.actions.toList
    refusal invalid action argument
  have hmeets := follows_loop action argument params.length
    (hlength.trans (Array.length_toList).symm) marks c2 hc2
  rw [hstanding2] at hmeets
  refine ⟨behind marks c2, hmeets, ?_⟩
  have hassoc : interpreter root params.length cache t = (do
      let (action, argument) ← begin root cache t.volatileNames
      let (exit, targets, invalid) ← fork action t.size
      (do
        leaving exit argument params.length
        actions targets t.actions.toList
        refusal invalid action argument)
      finish) := by
    rw [interpreter_eq_begin]
    simp only [finish, bind_assoc]
  rw [hassoc, run_bind, hbegin]
  dsimp only
  rw [run_bind, hfork]
  dsimp only
  change ((behind >>= fun _ => finish) marks c2 : Except Failure Program × Code) = _
  rw [run_bind]
  rcases (behind marks c2 : Except Failure Unit × Code) with ⟨_ | _, _⟩ <;> rfl

end Emit

end ExprBackend
