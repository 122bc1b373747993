import ExprBackend.Proofs.Course
import ExprBackend.Proofs.Steadiness

/-! # Code follows its course

Emission into a buffer follows the course of the expression: it succeeds where the
course leads on, and leaves the buffer in the standing that the course gives. Only
the top of the dispatch loop is not the expression's own. If it is placed, where
the stack is empty, code that goes back there at another height is refused. A
cache that looks up values changes neither standings nor transfers, but it may
refuse more.
-/

namespace ExprBackend

open List

variable {c c' c'' : Code} {depth maxDepth : Int} {failure : Failure} {fed reachable : Bool}
  {hands : List (Label × Int)} {info : LabelInfo} {l : Label} {labels : Array LabelInfo} {log : Log}
  {marks : Marks} {more : Array Instr} {op : Opcode} {α β : Type}
  {after : α → β → List (Label × Int)} {t : Course β}

namespace Code

/-- The places in the code are known, each instruction that can be reached finds its operands. -/
def Kept (c : Code) : Prop :=
  ∃ mine before, c.Sound 1 mine c.prologue.toList (before ++ [.start])

/-- A label that is placed or at hand, or the top of the loop. -/
def Aimed (hands : List (Label × Int)) (c : Code) (l : Label) : Prop :=
  l ∈ hands.map Prod.fst ∨ c.loop? = some l ∨ ∃ info, c.label? l = some info ∧ info.position.isSome

/-- A buffer with labels at hand. They are not placed, and of each of them a height is known, or
none as long as it is negative. -/
structure Shows (hands : List (Label × Int)) (c : Code) : Prop where
  outside : c.inPrologue = false
  normal : height c.depth = c.depth
  waiting : ∀ l d, (l, d) ∈ hands → c.label? l = some ⟨none, d⟩ ∧ height d = d
  distinct : (hands.map Prod.fst).Nodup
  loop : ∀ l, c.loop? = some l → (∃ info, c.label? l = some info) ∧ l ∉ hands.map Prod.fst
  /-- Jumps and jump tables lead to labels that are placed or at hand, or to the top of the loop. -/
  aims : ∀ i ∈ c.body, i.op.isJump = true → c.Aimed hands i.operand
  tabled : ∀ t ∈ c.tables, ∀ l ∈ t.default :: t.targets, c.Aimed hands l
  straight : ∀ i ∈ c.prologue, i.op.isJump = false
  /-- Nothing but a single cache intercepts emissions. -/
  single : ∀ first, c.interceptor = some first →
    ∃ id, first = .cache id ∧ ∀ r, c.regions.lookup id = some r → r.next = none

/-- Jumps stand before the places of their labels, except those to the top of the loop, and none
goes by a table. -/
structure Onward (c : Code) : Prop where
  jumps : ∀ k i info p, c.body[k]? = some i → i.op.isJump = true → c.loop? ≠ some i.operand →
    c.label? i.operand = some info → info.position = some p → k < p
  plain : ∀ i ∈ c.instrs, i.op ≠ .jumpTable

/-- What becomes of a buffer along a stretch of code. -/
structure Moves (c c' : Code) (log : Log) : Prop where
  name : c'.name = c.name
  paramCount : c'.paramCount = c.paramCount
  locals : c.locals.length ≤ c'.locals.length
  interceptor : c'.interceptor = c.interceptor
  tables : c'.tables = c.tables
  placed : ∀ l info, c.label? l = some info → info.position.isSome →
    ∃ info', c'.label? l = some info' ∧ info'.position.isSome
  loop : ∀ l, c.loop? = some l → c'.loop? = some l
  looped : log.transfers ≠ [] → c'.loop?.isSome
  atop : ∀ l p, c.loop? = some l → c.label? l = some ⟨some p, 0⟩ →
    c'.label? l = some ⟨some p, 0⟩ ∧ ∀ d ∈ log.transfers, d = 0
  size : c.body.size + log.size ≤ c'.body.size
  room : c.prologue.size ≤ c'.prologue.size
  onward : c.Onward → c'.Onward
  kept : log.fed = true → c'.prologue.size + c'.body.size ≤ 65535 → c.Kept → c'.Kept

variable {log' : Log}

theorem Moves.trans (h : c.Moves c' log) (h' : c'.Moves c'' log') : c.Moves c'' (log ++ log') where
  name := h'.name.trans h.name
  paramCount := h'.paramCount.trans h.paramCount
  locals := Nat.le_trans h.locals h'.locals
  interceptor := h'.interceptor.trans h.interceptor
  tables := h'.tables.trans h.tables
  placed l info hinfo hplaced := by
    obtain ⟨info1, hinfo1, hplaced1⟩ := h.placed l info hinfo hplaced
    exact h'.placed l info1 hinfo1 hplaced1
  loop l hl := h'.loop l (h.loop l hl)
  looped htransfers := by
    by_cases hsecond : log'.transfers = []
    · have hfirst : log.transfers ≠ [] := by
        intro hfirst
        simp [hfirst, hsecond] at htransfers
      obtain ⟨l, hl⟩ := Option.isSome_iff_exists.mp (h.looped hfirst)
      rw [h'.loop l hl]
      rfl
    · exact h'.looped hsecond
  atop l p hloop hlabel := by
    obtain ⟨hlabel1, hfirst⟩ := h.atop l p hloop hlabel
    obtain ⟨hlabel2, hsecond⟩ := h'.atop l p (h.loop l hloop) hlabel1
    refine ⟨hlabel2, fun d hd => ?_⟩
    rcases mem_append.mp hd with hd | hd
    · exact hfirst d hd
    · exact hsecond d hd
  size := by
    have := h.size
    have := h'.size
    simp only [Log.append_size]
    omega
  room := Nat.le_trans h.room h'.room
  onward hc := h'.onward (h.onward hc)
  kept hfed hroom hkept := by
    obtain ⟨hfirst, hsecond⟩ := Bool.and_eq_true_iff.mp hfed
    have := h'.size
    have := h'.room
    exact h'.kept hsecond hroom (h.kept hfirst (by omega) hkept)

/-- Code of which more is known may do without what it does beyond another. -/
theorem Moves.of_log (h : c.Moves c' log) (hsize : log'.size ≤ log.size)
    (htransfers : log'.transfers = log.transfers)
    (hfed : log'.fed = true → c'.prologue.size + c'.body.size ≤ 65535 → c.Kept → log.fed = true) :
    c.Moves c' log' where
  name := h.name
  paramCount := h.paramCount
  locals := h.locals
  interceptor := h.interceptor
  tables := h.tables
  placed := h.placed
  loop := h.loop
  looped := by
    rw [htransfers]
    exact h.looped
  atop := by
    rw [htransfers]
    exact h.atop
  size := Nat.le_trans (Nat.add_le_add_left hsize _) h.size
  room := h.room
  onward := h.onward
  kept hfed' hroom hkept := h.kept (hfed hfed' hroom hkept) hroom hkept

/-- Buffers that differ in nothing that matters to the course of the stack. -/
structure Alike (c c' : Code) : Prop where
  name : c'.name = c.name
  paramCount : c'.paramCount = c.paramCount
  locals : c.locals.length ≤ c'.locals.length
  body : c'.body = c.body
  prologue : c'.prologue = c.prologue
  inPrologue : c'.inPrologue = c.inPrologue
  labels : c'.labels = c.labels
  namedLabels : c'.namedLabels = c.namedLabels
  tables : c'.tables = c.tables
  depth : c'.depth = c.depth
  maxDepth : c'.maxDepth = c.maxDepth
  reachable : c'.reachable = c.reachable
  interceptor : c'.interceptor = c.interceptor
  handlers : ∀ id r', c'.regions.lookup id = some r' →
    r'.next = none ∨ ∃ r, c.regions.lookup id = some r ∧ r'.next = r.next

namespace Alike

theorem standing (h : c.Alike c') : c'.standing = c.standing := by
  rw [Code.standing, Code.standing, h.depth, h.reachable]

theorem kept (h : c.Alike c') (hkept : c.Kept) : c'.Kept := by
  obtain ⟨mine, before, hsound⟩ := hkept
  refine ⟨mine, before, ?_⟩
  rw [h.prologue]
  exact hsound.of_eq h.body h.labels h.tables h.inPrologue h.depth h.reachable h.maxDepth

theorem shows (h : c.Alike c') (hc : c.Shows hands) : c'.Shows hands where
  outside := h.inPrologue.trans hc.outside
  normal := by
    rw [h.depth]
    exact hc.normal
  waiting l d hl := by
    rw [label?_of_labels_eq h.labels]
    exact hc.waiting l d hl
  distinct := hc.distinct
  loop l hl := by
    rw [label?_of_labels_eq h.labels]
    exact hc.loop l (by rw [loop?, ← h.namedLabels]; exact hl)
  aims i hi hjump := by
    rw [h.body] at hi
    rw [Aimed, label?_of_labels_eq h.labels, loop?, h.namedLabels]
    exact hc.aims i hi hjump
  tabled t ht l hl := by
    rw [h.tables] at ht
    rw [Aimed, label?_of_labels_eq h.labels, loop?, h.namedLabels]
    exact hc.tabled t ht l hl
  straight := by
    rw [h.prologue]
    exact hc.straight
  single first hfirst := by
    rw [h.interceptor] at hfirst
    obtain ⟨id, rfl, hnext⟩ := hc.single first hfirst
    refine ⟨id, rfl, fun r' hr' => ?_⟩
    rcases h.handlers id r' hr' with hnone | ⟨r, hr, heq⟩
    · exact hnone
    · exact heq.trans (hnext r hr)

theorem moves (h : c.Alike c') : c.Moves c' .empty where
  name := h.name
  paramCount := h.paramCount
  locals := h.locals
  interceptor := h.interceptor
  tables := h.tables
  placed l info hinfo hplaced := by
    rw [label?_of_labels_eq h.labels]
    exact ⟨info, hinfo, hplaced⟩
  loop l hl := by
    rw [loop?, h.namedLabels]
    exact hl
  looped htransfers := absurd rfl htransfers
  atop l p hloop hlabel := by
    rw [label?_of_labels_eq h.labels]
    exact ⟨hlabel, fun d hd => absurd hd not_mem_nil⟩
  size := by
    rw [h.body]
    exact Nat.le_refl _
  room := Nat.le_of_eq (by rw [h.prologue])
  onward hc := by
    refine ⟨fun k i info p hi hjump hloop hinfo hp => ?_, fun i hi => hc.plain i ?_⟩
    · rw [h.body] at hi
      rw [label?_of_labels_eq h.labels] at hinfo
      rw [loop?, h.namedLabels] at hloop
      exact hc.jumps k i info p hi hjump hloop hinfo hp
    · rw [instrs, h.prologue, h.body] at hi
      exact hi
  kept _ _ hkept := h.kept hkept

theorem trans (h : c.Alike c') (h' : c'.Alike c'') : c.Alike c'' where
  name := h'.name.trans h.name
  paramCount := h'.paramCount.trans h.paramCount
  locals := Nat.le_trans h.locals h'.locals
  body := h'.body.trans h.body
  prologue := h'.prologue.trans h.prologue
  inPrologue := h'.inPrologue.trans h.inPrologue
  labels := h'.labels.trans h.labels
  namedLabels := h'.namedLabels.trans h.namedLabels
  tables := h'.tables.trans h.tables
  depth := h'.depth.trans h.depth
  maxDepth := h'.maxDepth.trans h.maxDepth
  reachable := h'.reachable.trans h.reachable
  interceptor := h'.interceptor.trans h.interceptor
  handlers id r'' hr'' := by
    rcases h'.handlers id r'' hr'' with hnone | ⟨r', hr', heq⟩
    · exact .inl hnone
    · rcases h.handlers id r' hr' with hnone | ⟨r, hr, heq'⟩
      · exact .inl (heq.trans hnone)
      · exact .inr ⟨r, hr, heq.trans heq'⟩

theorem pooled (c : Code) (v : Value) : c.Alike (c.pooled v) :=
  ⟨rfl, rfl, Nat.le_refl _, rfl, rfl, rfl, rfl, rfl, rfl, rfl, rfl, rfl, rfl,
    fun _ r hr => .inr ⟨r, hr, rfl⟩⟩

theorem noted (c : Code) (emitting : List LazySignature) (events : Array Event)
    (observations : Array Observation) : c.Alike (c.noted emitting events observations) :=
  ⟨rfl, rfl, Nat.le_refl _, rfl, rfl, rfl, rfl, rfl, rfl, rfl, rfl, rfl, rfl,
    fun _ r hr => .inr ⟨r, hr, rfl⟩⟩

theorem declared (c : Code) (name : Text) : c.Alike (c.declared name) := by
  unfold Code.declared declare
  cases c.slot? name with
  | some slot => exact .noted c c.emitting c.events c.observations
  | none =>
    exact ⟨rfl, rfl, by simp, rfl, rfl, rfl, rfl, rfl, rfl, rfl, rfl, rfl, rfl,
      fun _ r hr => .inr ⟨r, hr, rfl⟩⟩

end Alike

end Code

namespace Emit

variable {γ δ : Type} {c1 : Code} {b : β} {u : β → Course δ} {x : Emit α} {f : α → Emit γ}

/-- A failure comes about only if the pool is full, if the course is refused, or if the code goes
back to the top of the loop, where the stack is empty, at another height. -/
def Excused (c c' : Code) (course : Option (β × Standing × Log)) (failure : Failure) : Prop :=
  c'.chunk.constants.size ≤ 65536 → c.interceptor = none → ∀ l p, c.loop? = some l →
    c.label? l = some ⟨some p, 0⟩ →
    course = none ∨ ∃ b s log d, course = some (b, s, log) ∧ d ∈ log.transfers ∧ d ≠ 0 ∧
      failure = .compile (.code c.name (.backJumpDepth l d 0))

/-- What emission from a buffer comes to is what a course says. -/
def Meets (c : Code) (course : Option (β × Standing × Log)) (after : α → β → List (Label × Int)) :
    Except Failure α × Code → Prop
  | (.ok a, c') => ∃ b log, course = some (b, c'.standing, log) ∧ c'.Shows (after a b) ∧
      c.Moves c' log
  | (.error failure, c') => Excused c c' course failure

/-- The emission follows a course, from buffers with labels at hand to buffers with others. -/
def Follows (hands : List (Label × Int)) (x : Emit α) (course : Course β)
    (after : α → β → List (Label × Int)) : Prop :=
  ∀ (marks : Marks) (c : Code), c.Shows hands → Meets c (course c.standing) after (x marks c)

theorem follows_pure {a : α} (hafter : after a b = hands) :
    Follows hands (pure a) (pure b) after := by
  intro marks c hc
  refine ⟨b, .empty, rfl, ?_, (Code.Alike.noted c c.emitting c.events c.observations).moves⟩
  rw [hafter]
  exact hc

/-- What excuses a failure excuses it also if there was more to come. -/
theorem Excused.bind {s : Standing} (h : Excused c c' (t s) failure) :
    Excused c c' ((t >>= u) s) failure := by
  intro hroom hnone l p hloop hlabel
  rcases h hroom hnone l p hloop hlabel with hrefused | ⟨b, s, log, d, hcourse, hd, hne, rfl⟩
  · exact .inl (Course.bind_of_none hrefused)
  · rw [Course.bind_of_some hcourse]
    cases hsecond : u b s with
    | none => exact .inl rfl
    | some r => exact .inr ⟨_, _, _, d, rfl, mem_append_left _ hd, hne, rfl⟩

/-- Emission goes on from where it has come to. -/
theorem Meets.bind {after : γ → δ → List (Label × Int)} {outcome : Except Failure γ × Code}
    (hcourse : t c.standing = some (b, c1.standing, log)) (hmoves : c.Moves c1 log)
    (h : Meets c1 (u b c1.standing) after outcome) :
    Meets c ((t >>= u) c.standing) after outcome := by
  obtain ⟨result, c2⟩ := outcome
  rw [Course.bind_of_some hcourse]
  cases result with
  | error failure =>
    intro hroom hnone l p hloop hlabel
    rcases h hroom (hmoves.interceptor.trans hnone) l p (hmoves.loop l hloop)
      (hmoves.atop l p hloop hlabel).1 with hrefused | ⟨b', s, log', d, hcourse', hd, hne, rfl⟩
    · rw [hrefused]
      exact .inl rfl
    · rw [hcourse', hmoves.name]
      exact .inr ⟨_, _, _, d, rfl, mem_append_right _ hd, hne, rfl⟩
  | ok a' =>
    obtain ⟨b', log', hcourse', hshows', hmoves'⟩ := h
    refine ⟨b', log ++ log', ?_, hshows', hmoves.trans hmoves'⟩
    rw [hcourse']
    rfl

theorem Follows.bind {after' : γ → δ → List (Label × Int)} (hx : Follows hands x t after)
    (hf : ∀ a b, Follows (after a b) (f a) (u b) after') :
    Follows hands (x >>= f) (t >>= u) after' := by
  intro marks c hc
  have hfirst := hx marks c hc
  rw [run_bind]
  rcases hrun : (x marks c : Except Failure α × Code) with ⟨result, c1⟩
  rw [hrun] at hfirst
  cases result with
  | error failure => exact Excused.bind hfirst
  | ok a =>
    obtain ⟨b, log, hcourse, hshows, hmoves⟩ := hfirst
    exact Meets.bind hcourse hmoves (hf a b marks c1 hshows)

/-- Emission can go on from a buffer in the same standing. -/
theorem Meets.of_moves {course : Option (β × Standing × Log)} {outcome : Except Failure α × Code}
    (h : Meets c1 course after outcome) (hmoves : c.Moves c1 .empty) :
    Meets c course after outcome := by
  obtain ⟨result, c2⟩ := outcome
  cases result with
  | error failure =>
    intro hroom hnone l p hloop hlabel
    have hexcuse := h hroom (hmoves.interceptor.trans hnone) l p (hmoves.loop l hloop)
      (hmoves.atop l p hloop hlabel).1
    rw [hmoves.name] at hexcuse
    exact hexcuse
  | ok a =>
    obtain ⟨b, log, hcourse, hshows, hmoves'⟩ := h
    have htrans := hmoves.trans hmoves'
    rw [Log.empty_append] at htrans
    exact ⟨b, log, hcourse, hshows, htrans⟩

/-- What does nothing to the course of the stack can come before. -/
theorem Follows.silent {after : γ → β → List (Label × Int)}
    (hx : ∀ marks c, ∃ a c', (x marks c : Except Failure α × Code) = (.ok a, c') ∧ c.Alike c')
    (hf : ∀ a, Follows hands (f a) t after) : Follows hands (x >>= f) t after := by
  intro marks c hc
  obtain ⟨a, c1, hrun, halike⟩ := hx marks c
  have hsecond := hf a marks c1 (halike.shows hc)
  rw [halike.standing] at hsecond
  rw [run_bind, hrun]
  exact hsecond.of_moves halike.moves

/-! ## Instructions -/

theorem height_height (n : Int) : height (height n) = height n := Int.bmod_bmod

end Emit

namespace Code

/-- The buffer with other code behind what was there, and something else known of its labels. -/
def grown (c : Code) (labels : Array LabelInfo) (more : Array Instr) (depth maxDepth : Int)
    (reachable : Bool) : Code :=
  { c with labels, body := c.body ++ more, depth, maxDepth, reachable }

section Grown

variable {hands' : List (Label × Int)}

/-- Labels that are placed come behind the code, and jumps are made to labels that are not placed.
-/
theorem Onward.grown (hc : c.Onward)
    (hlabels : ∀ l info p, (c.grown labels more depth maxDepth reachable).label? l = some info →
      info.position = some p →
      c.body.size ≤ p ∨ ∃ info', c.label? l = some info' ∧ info'.position = some p)
    (hplain : ∀ i ∈ more, i.op ≠ .jumpTable)
    (hmore : ∀ i ∈ more, i.op.isJump = true → c.loop? ≠ some i.operand → ∀ info,
      (c.grown labels more depth maxDepth reachable).label? i.operand = some info →
        info.position = none) :
    (c.grown labels more depth maxDepth reachable).Onward where
  jumps k i info p hi hjump hloop hinfo hp := by
    have hi : (c.body ++ more)[k]? = some i := hi
    rcases Nat.lt_or_ge k c.body.size with hk | hk
    · rw [Array.getElem?_append_left hk] at hi
      rcases hlabels i.operand info p hinfo hp with hbehind | ⟨info', hinfo', hp'⟩
      · omega
      · exact hc.jumps k i info' p hi hjump hloop hinfo' hp'
    · rw [Array.getElem?_append_right hk] at hi
      rw [hmore i (Array.mem_of_getElem? hi) hjump hloop info hinfo] at hp
      cases hp
  plain i hi := by
    have hi : i ∈ c.prologue.toList ++ (c.body ++ more).toList := hi
    rw [Array.toList_append, ← append_assoc] at hi
    rcases mem_append.mp hi with hi | hi
    · exact hc.plain i hi
    · exact hplain i (Array.mem_toList_iff.mp hi)

/-- An instruction that is no jump. -/
theorem Onward.pushed (hc : c.Onward) {i : Instr} (hjump : i.op.isJump = false)
    (htable : i.op ≠ .jumpTable) : (c.grown c.labels #[i] depth maxDepth reachable).Onward := by
  refine hc.grown (fun l info p hinfo hp => .inr ⟨info, hinfo, hp⟩) (by simpa using htable)
    fun j hj hjump' => ?_
  obtain rfl := Array.mem_singleton.mp hj
  rw [hjump] at hjump'
  cases hjump'

/-- A buffer grows by code that leaves the labels alone that are placed, and the top of the loop. -/
theorem moves_grown (hkeep : ∀ l info, c.label? l = some info →
      info.position.isSome ∨ c.loop? = some l →
      (c.grown labels more depth maxDepth reachable).label? l = some info)
    (honward : c.Onward → (c.grown labels more depth maxDepth reachable).Onward)
    (hkept : fed = true → c.prologue.size + (c.body.size + more.size) ≤ 65535 → c.Kept →
      (c.grown labels more depth maxDepth reachable).Kept) :
    c.Moves (c.grown labels more depth maxDepth reachable) ⟨more.size, fed, []⟩ where
  name := rfl
  paramCount := rfl
  locals := Nat.le_refl _
  interceptor := rfl
  tables := rfl
  placed l info hinfo hplaced := ⟨info, hkeep l info hinfo (.inl hplaced), hplaced⟩
  loop l hl := hl
  looped htransfers := absurd rfl htransfers
  atop l p hloop hlabel :=
    ⟨hkeep l _ hlabel (.inr hloop), fun d hd => absurd hd not_mem_nil⟩
  size := by simp [grown]
  room := Nat.le_refl _
  onward := honward
  kept hfed hroom hc := by
    refine hkept hfed ?_ hc
    simpa [grown] using hroom

theorem aimed_grown (hc : c.Shows hands)
    (hkeep : ∀ l info, c.label? l = some info → info.position.isSome ∨ l ∈ hands.map Prod.fst →
      l ∈ hands'.map Prod.fst ∨
        ∃ info', (c.grown labels more depth maxDepth reachable).label? l = some info' ∧
          info'.position.isSome) (hl : c.Aimed hands l) :
    (c.grown labels more depth maxDepth reachable).Aimed hands' l := by
  rcases hl with hhand | hloop | ⟨info, hinfo, hplaced⟩
  · obtain ⟨⟨l, d⟩, hl, rfl⟩ := mem_map.mp hhand
    rcases hkeep _ _ (hc.waiting _ _ hl).1 (.inr hhand) with hhand | hplaced
    · exact .inl hhand
    · exact .inr (.inr hplaced)
  · exact .inr (.inl hloop)
  · rcases hkeep _ _ hinfo (.inl hplaced) with hhand | hplaced
    · exact .inl hhand
    · exact .inr (.inr hplaced)

/-- The labels at hand are known in the buffer that has grown, and its jumps go there. -/
theorem shows_grown (hc : c.Shows hands) (hnormal : height depth = depth)
    (hwaiting : ∀ l d, (l, d) ∈ hands' →
      (c.grown labels more depth maxDepth reachable).label? l = some ⟨none, d⟩ ∧ height d = d)
    (hdistinct : (hands'.map Prod.fst).Nodup)
    (hloop : ∀ l info, c.loop? = some l → c.label? l = some info →
      (∃ info', (c.grown labels more depth maxDepth reachable).label? l = some info') ∧
        l ∉ hands'.map Prod.fst)
    (hkeep : ∀ l info, c.label? l = some info → info.position.isSome ∨ l ∈ hands.map Prod.fst →
      l ∈ hands'.map Prod.fst ∨
        ∃ info', (c.grown labels more depth maxDepth reachable).label? l = some info' ∧
          info'.position.isSome)
    (hmore : ∀ i ∈ more, i.op.isJump = true →
      i.operand ∈ hands'.map Prod.fst ∨ c.loop? = some i.operand) :
    (c.grown labels more depth maxDepth reachable).Shows hands' where
  outside := hc.outside
  normal := hnormal
  waiting := hwaiting
  distinct := hdistinct
  loop l hl := by
    obtain ⟨⟨info, hinfo⟩, -⟩ := hc.loop l hl
    exact hloop l info hl hinfo
  aims i hi hjump := by
    rcases Array.mem_append.mp hi with hi | hi
    · exact aimed_grown hc hkeep (hc.aims i hi hjump)
    · rcases hmore i hi hjump with hhand | hloop
      · exact .inl hhand
      · exact .inr (.inl hloop)
  tabled t ht l hl := aimed_grown hc hkeep (hc.tabled t ht l hl)
  straight := hc.straight
  single := hc.single

/-- Code that is added leaves labels alone if it does not jump. -/
theorem Shows.grown (hc : c.Shows hands) (hnormal : height depth = depth)
    (hmore : ∀ i ∈ more, i.op.isJump = false) :
    (c.grown c.labels more depth maxDepth reachable).Shows hands :=
  shows_grown hc hnormal hc.waiting hc.distinct
    (fun l info hl hinfo => ⟨⟨info, hinfo⟩, (hc.loop l hl).2⟩)
    (fun l info hinfo h => h.symm.imp_right fun hplaced => ⟨info, hinfo, hplaced⟩)
    fun i hi hjump => absurd hjump (by simp [hmore i hi])

end Grown

end Code

/-- How many operands an instruction reads and how it changes the height, if it is no jump and adds
at most one. -/
def Opcode.straight? (op : Opcode) (operand : Int) : Option (Nat × Int) :=
  let operand := decoded op.width operand
  if op.isJump || op = .jumpTable || 1 < op.change operand then none
  else some (op.reads operand, op.change operand)

namespace Emit

variable {before rest : List (Label × Int)}

/-- An instruction that is no jump. It raises the stack by no more than one. -/
theorem follows_append {operand change : Int} {reads : Nat} (hjump : op.isJump = false)
    (htable : op ≠ .jumpTable) (hchange : change ≤ 1)
    (hfit : reads ≤ 65535 → op.reads (decoded op.width operand) = reads ∧
      op.change (decoded op.width operand) = change) :
    Follows hands (append op operand change) (Course.step reads change) fun _ _ => hands := by
  intro marks c hc
  have hgrown : c.appended op operand change = c.grown c.labels #[⟨op, operand⟩]
      (height (c.depth + change)) (max c.maxDepth (height (c.depth + change))) c.reachable := by
    simp [Code.appended, Code.grown]
  refine ⟨(), _, rfl, ?_, ?_⟩
  · change (c.appended op operand change).Shows hands
    rw [hgrown]
    exact hc.grown (height_height _) (by simp [hjump])
  · change c.Moves (c.appended op operand change) _
    rw [hgrown]
    refine Code.moves_grown (fun l info hinfo _ => hinfo)
      (·.pushed hjump htable) fun hfed hroom hkept => ?_
    obtain ⟨mine, before, hsound⟩ := hkept
    rw [← hgrown]
    have hsize : c.prologue.toList.length + c.body.size ≤ 65535 := by
      simp at hroom ⊢
      omega
    refine ⟨mine ++ [c.standing], before, hsound.appended (by omega) hsize fun hlive => ?_⟩
    have hreads : (reads : Int) ≤ c.depth := by
      simpa [Code.standing, hlive] using hfed
    have hdepth := (hsound.depth_bounds hlive).2.2
    obtain ⟨hread, heffect⟩ := hfit (by omega)
    exact Code.admits_plain hjump htable (by rw [hread]; exact hreads) heffect.symm (by omega)

theorem follows_plain {operand change : Int} {reads : Nat}
    (h : op.straight? operand = some (reads, change)) :
    Follows hands (append op operand change) (Course.step reads change) fun _ _ => hands := by
  rw [Opcode.straight?] at h
  split at h
  · cases h
  · next hop =>
    simp only [Bool.or_eq_true, decide_eq_true_eq, not_or, Bool.not_eq_true] at hop
    cases h
    exact follows_append hop.1.1 hop.1.2 (Int.not_lt.mp hop.2) fun _ => ⟨rfl, rfl⟩

/-- A label that is made is none of those that are there. -/
theorem ne_size_of_label? (h : c.label? l = some info) : l ≠ c.labels.size := by
  intro hl
  have hlt := (Code.lt_of_label? h).2
  rw [hl, Int.toNat_natCast] at hlt
  exact Nat.lt_irrefl _ hlt

theorem labelled_eq (c : Code) :
    c.labelled = c.grown c.labelled.labels #[] c.depth c.maxDepth c.reachable := by
  simp [Code.labelled, Code.grown]

/-- A new label is at hand. -/
theorem shows_labelled (hc : c.Shows hands) :
    c.labelled.Shows (((c.labels.size : Int), -1) :: hands) := by
  rw [labelled_eq]
  refine Code.shows_grown hc hc.normal (fun l d hl => ?_) ?_ (fun l info hl hinfo => ?_)
    (fun l info hinfo h => ?_) (fun i hi => ?_)
  · rw [← labelled_eq]
    rcases mem_cons.mp hl with heq | hl
    · cases heq
      exact ⟨c.label?_labelled_new, rfl⟩
    · exact ⟨Code.label?_labelled (hc.waiting l d hl).1, (hc.waiting l d hl).2⟩
  · refine nodup_cons.mpr ⟨fun hmem => ?_, hc.distinct⟩
    obtain ⟨⟨l, d⟩, hl, heq⟩ := mem_map.mp hmem
    exact ne_size_of_label? (hc.waiting l d hl).1 heq
  · rw [← labelled_eq]
    refine ⟨⟨info, Code.label?_labelled hinfo⟩, fun hmem => ?_⟩
    rcases mem_cons.mp hmem with heq | hmem
    · exact ne_size_of_label? hinfo heq
    · exact (hc.loop l hl).2 hmem
  · rw [← labelled_eq]
    rcases h with hplaced | hhand
    · exact .inr ⟨info, Code.label?_labelled hinfo, hplaced⟩
    · exact .inl (mem_cons_of_mem _ hhand)
  · simp at hi

theorem moves_labelled (c : Code) : c.Moves c.labelled .empty := by
  rw [labelled_eq]
  refine Code.moves_grown (fun l info hinfo _ => ?_)
    (fun hc => hc.grown (fun l info p hinfo hp => ?_) (by simp) (by simp)) fun _ _ hkept => ?_
  · rw [← labelled_eq]
    exact Code.label?_labelled hinfo
  · rw [← labelled_eq] at hinfo
    rcases Code.label?_of_labelled hinfo with hinfo | ⟨-, rfl⟩
    · exact .inr ⟨info, hinfo, hp⟩
    · cases hp
  · obtain ⟨mine, before, hsound⟩ := hkept
    rw [← labelled_eq]
    exact ⟨mine, before, hsound.labelled⟩

theorem follows_newLabel {f : Label → Emit α} (hf : ∀ l, Follows ((l, -1) :: hands) (f l) t after) :
    Follows hands (newLabel >>= f) t after := fun marks c hc =>
  (hf c.labels.size marks c.labelled (shows_labelled hc)).of_moves (moves_labelled c)

/-! ## Jumps -/

section Jumps

variable {known : Int} {d : Int}

/-- A label at hand is not placed. -/
theorem waiting_hand (hc : c.Shows (before ++ (l, known) :: rest)) :
    c.label? l = some ⟨none, known⟩ ∧ height known = known :=
  hc.waiting l known (mem_append_right _ mem_cons_self)

theorem ne_of_hand (hc : c.Shows (before ++ (l, known) :: rest)) {l' : Label}
    (hl' : (l', d) ∈ before ++ rest) : l' ≠ l := by
  have hdistinct := hc.distinct
  rw [map_append, map_cons] at hdistinct
  have hnot := (nodup_middle.mp hdistinct)
  intro heq
  refine (nodup_cons.mp hnot).1 ?_
  rw [← map_append]
  exact mem_map.mpr ⟨(l', d), hl', heq⟩

/-- A jump to a label at hand. -/
theorem run_branchTo_hand (hlabel : c.label? l = some ⟨none, known⟩) (depth : Int) :
    (branchTo l depth marks c : Except Failure Unit × Code) =
      if c.reachable then
        if 0 ≤ known ∧ known ≠ depth then
          (.error (.compile (.code c.name (.labelDepth l depth known))), c)
        else (.ok (), c.withLabel l ⟨none, depth⟩)
      else (.ok (), c) := by
  rw [run_branchTo, hlabel]
  rfl

/-- A label at hand is placed. -/
theorem run_mark_hand (marks : Marks) (houtside : c.inPrologue = false)
    (hlabel : c.label? l = some ⟨none, known⟩) :
    ∃ c', (mark l marks c : Except Failure Unit × Code) =
      if c.reachable = true ∧ 0 ≤ known ∧ known ≠ c.depth then
        (.error (.compile (.code c.name (.labelDepth l c.depth known))), c')
      else (.ok (), c.marked l ⟨none, known⟩) :=
  ⟨_, by rw [run_mark, houtside, hlabel]; rfl⟩

/-- The buffer grows by code that only learns of one label at hand. -/
theorem shows_hand (hc : c.Shows (before ++ (l, known) :: rest)) {known' : Int}
    (hnormal : height depth = depth) (hnormal' : height known' = known')
    (hlabel : (c.grown labels more depth maxDepth reachable).label? l = some ⟨none, known'⟩)
    (hother : ∀ l', l' ≠ l → (c.grown labels more depth maxDepth reachable).label? l' = c.label? l')
    (hmore : ∀ i ∈ more, i.operand = l) :
    (c.grown labels more depth maxDepth reachable).Shows (before ++ (l, known') :: rest) := by
  have hhands : (before ++ (l, known') :: rest).map Prod.fst =
      (before ++ (l, known) :: rest).map Prod.fst := by simp
  have hmem : l ∈ (before ++ (l, known) :: rest).map Prod.fst := by simp
  refine Code.shows_grown hc hnormal (fun l' d hl' => ?_) (by rw [hhands]; exact hc.distinct)
    (fun l' info hl' hinfo => ?_) (fun l' info hinfo h => ?_) fun i hi _ => ?_
  · rcases mem_append.mp hl' with hl' | hl'
    · have hne := ne_of_hand hc (mem_append_left _ hl')
      rw [hother l' hne]
      exact hc.waiting l' d (mem_append_left _ hl')
    · rcases mem_cons.mp hl' with heq | hl'
      · cases heq
        exact ⟨hlabel, hnormal'⟩
      · have hne := ne_of_hand hc (mem_append_right _ hl')
        rw [hother l' hne]
        exact hc.waiting l' d (mem_append_right _ (mem_cons_of_mem _ hl'))
  · have hapart := (hc.loop l' hl').2
    rw [hhands]
    refine ⟨⟨info, ?_⟩, hapart⟩
    rw [hother l' fun heq => hapart (heq ▸ hmem)]
    exact hinfo
  · rw [hhands]
    rcases h with hplaced | hhand
    · by_cases hl' : l' = l
      · exact .inl (hl' ▸ hmem)
      · exact .inr ⟨info, by rw [hother l' hl']; exact hinfo, hplaced⟩
    · exact .inl hhand
  · rw [hmore i hi, hhands]
    exact .inl hmem

theorem moves_hand (hc : c.Shows (before ++ (l, known) :: rest))
    (hother : ∀ l', l' ≠ l → (c.grown labels more depth maxDepth reachable).label? l' = c.label? l')
    (hlabel : (c.grown labels more depth maxDepth reachable).label? l = some info)
    (hbehind : ∀ p, info.position = some p → p = c.body.size ∧ more = #[])
    (hmore : ∀ i ∈ more, i.operand = l ∧ i.op ≠ .jumpTable)
    (hkept : fed = true → c.prologue.size + (c.body.size + more.size) ≤ 65535 → c.Kept →
      (c.grown labels more depth maxDepth reachable).Kept) :
    c.Moves (c.grown labels more depth maxDepth reachable) ⟨more.size, fed, []⟩ := by
  refine Code.moves_grown (fun l' info' hinfo h => ?_)
    (fun honward => honward.grown (fun l' info' p hinfo hp => ?_) (fun i hi => (hmore i hi).2)
      fun i hi _ _ info' hinfo => ?_) hkept
  · rw [hother l' ?_]
    · exact hinfo
    · rintro rfl
      rcases h with hplaced | hloop
      · rw [(waiting_hand hc).1] at hinfo
        cases hinfo
        cases hplaced
      · exact (hc.loop l' hloop).2 (by simp)
  · by_cases heq : l' = l
    · subst heq
      rw [hlabel] at hinfo
      cases hinfo
      exact .inl (Nat.le_of_eq (hbehind p hp).1.symm)
    · rw [hother l' heq] at hinfo
      exact .inr ⟨info', hinfo, hp⟩
  · rw [(hmore i hi).1, hlabel] at hinfo
    cases hinfo
    cases hposition : info.position with
    | none => rfl
    | some p =>
      rw [(hbehind p hposition).2] at hi
      simp at hi

/-- A label at hand is placed, and is at hand no more. -/
theorem follows_mark (before : List (Label × Int)) (l : Label) (known : Int) :
    Follows (before ++ (l, known) :: rest) (mark l) (Course.place known) fun _ _ =>
      before ++ rest := by
  intro marks c hc
  obtain ⟨hlabel, hnormal⟩ := waiting_hand hc
  obtain ⟨c', hrun⟩ := run_mark_hand marks hc.outside hlabel
  rw [hrun]
  by_cases hbad : c.reachable = true ∧ 0 ≤ known ∧ known ≠ c.depth
  · rw [if_pos hbad]
    intro _ _ l' p _ _
    left
    simp [Course.place, Code.standing, hbad]
  · rw [if_neg hbad]
    have hgrown : c.marked l ⟨none, known⟩ = c.grown (c.marked l ⟨none, known⟩).labels #[]
        (c.marked l ⟨none, known⟩).depth c.maxDepth (c.marked l ⟨none, known⟩).reachable := by
      simp [Code.marked, Code.grown]
    have hother : ∀ l', l' ≠ l → (c.marked l ⟨none, known⟩).label? l' = c.label? l' := fun l' hne =>
      Code.label?_set_other rfl hne (Code.lt_of_label? hlabel).1
    have hplaced : (c.marked l ⟨none, known⟩).label? l =
        some ⟨some c.body.size, if c.reachable then c.depth else known⟩ :=
      Code.label?_set_same rfl hlabel
    refine ⟨(), .empty, ?_, ?_, ?_⟩
    · cases hlive : c.reachable with
      | false =>
        by_cases hknown : 0 ≤ known <;> simp [Course.place, Code.standing, hlive, hknown]
      | true => simp [Course.place, Code.standing, hlive] at hbad ⊢; exact hbad
    · rw [hgrown]
      have hbefore : ∀ l' d, (l', d) ∈ before ++ rest → (l', d) ∈ before ++ (l, known) :: rest := by
        intro l' d hl'
        rcases mem_append.mp hl' with hl' | hl'
        · exact mem_append_left _ hl'
        · exact mem_append_right _ (mem_cons_of_mem _ hl')
      refine Code.shows_grown hc ?_ (fun l' d hl' => ?_) ?_ (fun l' info hl' hinfo => ?_)
        (fun l' info hinfo h => ?_) (fun i hi => by simp at hi)
      · rw [Code.marked_depth]
        split
        · exact hnormal
        · exact hc.normal
      · rw [← hgrown, hother l' (ne_of_hand hc hl')]
        exact hc.waiting l' d (hbefore l' d hl')
      · have hdistinct := hc.distinct
        rw [map_append, map_cons] at hdistinct
        rw [map_append]
        exact (nodup_cons.mp (nodup_middle.mp hdistinct)).2
      · have hapart := (hc.loop l' hl').2
        have hne : l' ≠ l := fun heq => hapart (by rw [heq]; simp)
        rw [← hgrown, hother l' hne]
        refine ⟨⟨info, hinfo⟩, fun hmem => hapart ?_⟩
        obtain ⟨⟨l'', d⟩, hl'', rfl⟩ := mem_map.mp hmem
        exact mem_map.mpr ⟨_, hbefore _ d hl'', rfl⟩
      · rw [← hgrown]
        by_cases heq : l' = l
        · subst heq
          exact .inr ⟨_, hplaced, rfl⟩
        · rw [hother l' heq]
          rcases h with hplaced | hhand
          · exact .inr ⟨info, hinfo, hplaced⟩
          · simp only [map_append, map_cons, mem_append, mem_cons, heq, false_or] at hhand
            exact .inl (by simpa only [map_append, mem_append] using hhand)
    · rw [hgrown]
      rw [hgrown] at hother hplaced
      refine moves_hand hc hother hplaced (fun p hp =>
        ⟨(Option.some_inj.mp hp).symm, rfl⟩) (by simp) fun _ _ hkept => ?_
      obtain ⟨mine, before, hsound⟩ := hkept
      rw [← hgrown]
      exact ⟨mine, before, hsound.marked hc.outside hlabel fun hlive hknown =>
        Decidable.byContradiction fun hne => hbad ⟨hlive, hknown, hne⟩⟩

/-- What is known of labels after a jump from code that can be reached. -/
def recorded (c : Code) (l : Label) (depth : Int) : Array LabelInfo :=
  if c.reachable then (c.withLabel l ⟨none, depth⟩).labels else c.labels

theorem label?_recorded (hlabels : c'.labels = recorded c l d)
    (hlabel : c.label? l = some ⟨none, known⟩) :
    c'.label? l = some ⟨none, if c.reachable then d else known⟩ ∧
      ∀ l', l' ≠ l → c'.label? l' = c.label? l' := by
  unfold recorded at hlabels
  cases hlive : c.reachable with
  | false =>
    rw [hlive, if_neg Bool.false_ne_true] at hlabels
    exact ⟨(Code.label?_of_labels_eq hlabels l).trans hlabel,
      fun l' _ => Code.label?_of_labels_eq hlabels l'⟩
  | true =>
    rw [hlive, if_pos rfl] at hlabels
    exact ⟨Code.label?_set_same hlabels hlabel, fun l' hne =>
      Code.label?_set_other hlabels hne (Code.lt_of_label? hlabel).1⟩

/-- A jump to a label at hand either does not fit, or is recorded. -/
theorem branchTo_hand (hlabel : c.label? l = some ⟨none, known⟩) (d : Int) :
    (branchTo l d marks c : Except Failure Unit × Code) =
      if c.reachable = true ∧ 0 ≤ known ∧ known ≠ d then
        (.error (.compile (.code c.name (.labelDepth l d known))), c)
      else (.ok (), { c with labels := recorded c l d }) := by
  rw [run_branchTo_hand hlabel, recorded]
  by_cases hlive : c.reachable = true
  · rw [if_pos hlive, if_pos hlive]
    by_cases hknown : 0 ≤ known ∧ known ≠ d
    · rw [if_pos hknown, if_pos ⟨hlive, hknown⟩]
    · rw [if_neg hknown, if_neg fun h => hknown h.2]
      rfl
  · rw [if_neg hlive, if_neg hlive, if_neg fun h => hlive h.1]

/-- A jump to a label at hand is refused, or the label becomes known. -/
theorem meets_branch (hc : c.Shows (before ++ (l, known) :: rest)) {c0 : Code}
    (htable : op ≠ .jumpTable) (hd : height d = d) (hdepth : height depth = depth)
    (hkept : ¬(c.reachable = true ∧ 0 ≤ known ∧ known ≠ d) → fed = true →
      c.prologue.size + (c.body.size + 1) ≤ 65535 → c.Kept →
      (c.grown (recorded c l d) #[⟨op, l⟩] depth maxDepth reachable).Kept) :
    Meets c (if c.reachable = true ∧ 0 ≤ known ∧ known ≠ d then none
        else some (if c.reachable then d else known, ⟨depth, reachable⟩, ⟨1, fed, []⟩))
      (fun _ known => before ++ (l, known) :: rest)
      (if c.reachable = true ∧ 0 ≤ known ∧ known ≠ d then (.error failure, c0)
        else (.ok (), c.grown (recorded c l d) #[⟨op, l⟩] depth maxDepth reachable)) := by
  obtain ⟨hlabel, hnormal⟩ := waiting_hand hc
  by_cases hbad : c.reachable = true ∧ 0 ≤ known ∧ known ≠ d
  · rw [if_pos hbad, if_pos hbad]
    exact fun _ _ _ _ _ _ => .inl rfl
  · have hlabels : (c.grown (recorded c l d) #[⟨op, l⟩] depth maxDepth reachable).labels =
      recorded c l d := rfl
    obtain ⟨hsame, hother⟩ := label?_recorded hlabels hlabel
    rw [if_neg hbad, if_neg hbad]
    refine ⟨_, _, rfl, shows_hand hc hdepth ?_ hsame hother (by simp),
      moves_hand hc hother hsame nofun (by simpa using htable) (hkept hbad)⟩
    cases c.reachable <;> simp [hd, hnormal]

theorem follows_jump (before : List (Label × Int)) (l : Label) (known : Int) :
    Follows (before ++ (l, known) :: rest) (jump l) (Course.jump known)
      fun _ known => before ++ (l, known) :: rest := by
  intro marks c hc
  have hrun : (jump l marks c : Except Failure Unit × Code) =
      if c.reachable = true ∧ 0 ≤ known ∧ known ≠ c.depth then
        (.error (.compile (.code c.name (.labelDepth l c.depth known))), c)
      else (.ok (), c.grown (recorded c l c.depth) #[⟨.jump, l⟩] (height c.depth)
        (max c.maxDepth (height c.depth)) false) := by
    rw [jump, run_get_bind, run_bind, branchTo_hand (waiting_hand hc).1]
    by_cases hbad : c.reachable = true ∧ 0 ≤ known ∧ known ≠ c.depth
    · rw [if_pos hbad, if_pos hbad]
    · rw [if_neg hbad, if_neg hbad]
      simp [append, endReach, run_bind, Code.grown]
      rfl
  rw [Course.jump_eq, hrun]
  refine meets_branch hc (by decide) hc.normal (height_height _) fun hfits _ _ hkept => ?_
  obtain ⟨mine, before, hsound⟩ := hkept
  exact ⟨_, before, hsound.jump (hrun.trans (if_neg hfits))⟩

theorem follows_popJump (hop : op = .jumpIfFalse ∨ op = .jumpIfTrue) (before : List (Label × Int))
    (l : Label) (known : Int) :
    Follows (before ++ (l, known) :: rest) (popJump op l) (Course.popJump known)
      fun _ known => before ++ (l, known) :: rest := by
  intro marks c hc
  have hrun : (popJump op l marks c : Except Failure Unit × Code) =
      if c.reachable = true ∧ 0 ≤ known ∧ known ≠ height (c.depth - 1) then
        (.error (.compile (.code c.name (.labelDepth l (height (c.depth - 1)) known))),
          c.appended op l (-1))
      else (.ok (), c.grown (recorded c l (height (c.depth - 1))) #[⟨op, l⟩] (height (c.depth - 1))
        (max c.maxDepth (height (c.depth - 1))) c.reachable) := by
    have hgrown : c.grown (recorded c l (height (c.depth - 1))) #[⟨op, l⟩] (height (c.depth - 1))
        (max c.maxDepth (height (c.depth - 1))) c.reachable =
          { c.appended op l (-1) with
            labels := recorded (c.appended op l (-1)) l (height (c.depth - 1)) } := by
      simp [Code.grown, Code.appended, recorded, Int.sub_eq_add_neg]
    rw [hgrown]
    exact branchTo_hand (c := c.appended op l (-1)) (waiting_hand hc).1 _
  rw [Course.popJump_eq, hrun]
  have htable : op ≠ .jumpTable := by rcases hop with rfl | rfl <;> nofun
  refine meets_branch hc htable (height_height _) (height_height _) fun hfits hfed hroom hkept => ?_
  obtain ⟨mine, before, hsound⟩ := hkept
  refine ⟨_, before, hsound.popJump (by omega) ?_ hop (fun hlive => ?_) (hrun.trans (if_neg hfits))⟩
  · rw [Array.length_toList]
    omega
  · simpa [Code.standing, hlive] using hfed

theorem follows_jumpOrPop (hop : op = .jumpIfFalseOrPop ∨ op = .jumpIfTrueOrPop)
    (before : List (Label × Int)) (l : Label) (known : Int) :
    Follows (before ++ (l, known) :: rest) (jumpOrPop op l) (Course.jumpOrPop known)
      fun _ known => before ++ (l, known) :: rest := by
  intro marks c hc
  have hrun : (jumpOrPop op l marks c : Except Failure Unit × Code) =
      if c.reachable = true ∧ 0 ≤ known ∧ known ≠ c.depth then
        (.error (.compile (.code c.name (.labelDepth l c.depth known))), c)
      else (.ok (), c.grown (recorded c l c.depth) #[⟨op, l⟩] (height (c.depth - 1))
        (max c.maxDepth (height (c.depth - 1))) c.reachable) := by
    rw [jumpOrPop, run_get_bind, run_bind, branchTo_hand (waiting_hand hc).1]
    by_cases hbad : c.reachable = true ∧ 0 ≤ known ∧ known ≠ c.depth
    · rw [if_pos hbad, if_pos hbad]
    · rw [if_neg hbad, if_neg hbad]
      simp [append, Code.grown, Int.sub_eq_add_neg]
      rfl
  rw [Course.jumpOrPop_eq, hrun]
  have htable : op ≠ .jumpTable := by rcases hop with rfl | rfl <;> decide
  refine meets_branch hc htable hc.normal (height_height _) fun hfits hfed hroom hkept => ?_
  obtain ⟨mine, before, hsound⟩ := hkept
  refine ⟨_, before, hsound.jumpOrPop (by omega) ?_ hop (fun hlive => ?_)
    (hrun.trans (if_neg hfits))⟩
  · rw [Array.length_toList]
    omega
  · simpa [Code.standing, hlive] using hfed

end Jumps

/-! ## The top of the loop -/

section Loop

/-- The label at the top of the loop is there when it is asked for. -/
theorem run_namedLabel_loop (marks : Marks) (hc : c.Shows hands) :
    ∃ l c1, (namedLabel loopLabel marks c : Except Failure Label × Code) = (.ok l, c1) ∧
      c1.Shows hands ∧ c1.loop? = some l ∧ c.Moves c1 .empty ∧ c1.standing = c.standing := by
  cases hloop : c.loop? with
  | some l =>
    refine ⟨l, c, ?_, hc, hloop, (Code.Alike.noted c c.emitting c.events c.observations).moves, rfl⟩
    rw [namedLabel, run_get_bind, show c.namedLabels.lookup loopLabel = some l from hloop]
    rfl
  | none =>
    have hnamed : c.namedLabels.lookup loopLabel = none := hloop
    have hnamed' : ∀ {l : Label}, c.Aimed hands l → Code.Aimed hands { c.labelled with
        namedLabels := (loopLabel, (c.labels.size : Int)) :: c.namedLabels } l := by
      rintro l (hhand | hloop' | ⟨info, hinfo, hplaced⟩)
      · exact .inl hhand
      · rw [hloop] at hloop'
        cases hloop'
      · exact .inr (.inr ⟨info, Code.label?_labelled hinfo, hplaced⟩)
    refine ⟨c.labels.size,
      { c.labelled with namedLabels := (loopLabel, (c.labels.size : Int)) :: c.namedLabels },
      ?_, ?_, by simp [Code.loop?], ?_, rfl⟩
    · rw [namedLabel, run_get_bind, hnamed]
      rfl
    · refine ⟨hc.outside, hc.normal, fun l d hl => ?_, hc.distinct, fun l hl => ?_,
        fun i hi hjump => hnamed' (hc.aims i hi hjump),
        fun t ht l hl => hnamed' (hc.tabled t ht l hl), hc.straight, hc.single⟩
      · exact ⟨Code.label?_labelled (hc.waiting l d hl).1, (hc.waiting l d hl).2⟩
      · obtain rfl : (c.labels.size : Int) = l := by simpa [Code.loop?] using hl
        refine ⟨⟨_, c.label?_labelled_new⟩, fun hmem => ?_⟩
        obtain ⟨⟨l, d⟩, hl, heq⟩ := mem_map.mp hmem
        exact ne_size_of_label? (hc.waiting l d hl).1 heq
    · refine ⟨rfl, rfl, Nat.le_refl _, rfl, rfl, fun l info hinfo hplaced => ?_, fun l hl => ?_,
        fun htransfers => absurd rfl htransfers, fun l p hl => ?_, Nat.le_refl _, Nat.le_refl _,
        fun honward => ⟨fun k i info p hi hjump _ hinfo hp => ?_, honward.plain⟩,
          fun _ _ hkept => ?_⟩
      · exact ⟨info, Code.label?_labelled hinfo, hplaced⟩
      · rw [hloop] at hl
        cases hl
      · rw [hloop] at hl
        cases hl
      · rcases Code.label?_of_labelled hinfo with hinfo | ⟨-, rfl⟩
        · exact honward.jumps k i info p hi hjump (by simp [hloop]) hinfo hp
        · cases hp
      · obtain ⟨mine, before, hsound⟩ := hkept
        exact ⟨mine, before, hsound.labelled.of_eq rfl rfl rfl rfl rfl rfl rfl⟩

/-- A jump back to a place where the stack is empty. -/
theorem run_branchTo_empty {p : Nat} (hlabel : c.label? l = some ⟨some p, 0⟩) (d : Int) :
    (branchTo l d marks c : Except Failure Unit × Code) =
      if c.reachable = true ∧ d ≠ 0 then
        (.error (.compile (.code c.name (.backJumpDepth l d 0))), c)
      else (.ok (), c) := by
  rw [run_branchTo, hlabel]
  by_cases hlive : c.reachable = true <;> simp [hlive, eq_comm]

/-- Code goes back to the top of the loop. -/
theorem meets_jump_loop (hc : c.Shows hands) (hloop : c.loop? = some l) :
    Meets c (Course.jumpLoop c.standing) (fun _ _ => hands)
      (jump l marks c : Except Failure Unit × Code) := by
  rcases hrun : (jump l marks c : Except Failure Unit × Code) with ⟨result, c'⟩
  cases result with
  | error failure =>
    intro _ _ l' p hloop' hlabel
    obtain rfl : l = l' := Option.some_inj.mp (hloop.symm.trans hloop')
    rw [jump, run_get_bind, run_bind, run_branchTo_empty hlabel] at hrun
    by_cases hbad : c.reachable = true ∧ c.depth ≠ 0
    · rw [if_pos hbad] at hrun
      cases hrun
      refine .inr ⟨_, _, _, c.depth, rfl, ?_, hbad.2, rfl⟩
      simp [Code.standing, hbad.1]
    · rw [if_neg hbad] at hrun
      cases hrun
  | ok u =>
    obtain ⟨c1, hbranch, heq⟩ := jump_of_yields hrun
    obtain rfl : c' = c.grown c1.labels #[⟨.jump, l⟩] (height c.depth)
        (max c.maxDepth (height c.depth)) false := by
      rw [heq, hbranch.eq_labels]
      simp [Code.appended, Code.ended, Code.grown]
    have hother : ∀ l', l' ≠ l → c1.label? l' = c.label? l' := by
      intro l' hne
      cases hbranch with
      | dead | backward => rfl
      | forward _ hinfo => exact Code.label?_set_other rfl hne (Code.lt_of_label? hinfo).1
    have hkeep : ∀ l' info, c.label? l' = some info → ∃ info', c1.label? l' = some info' ∧
        info'.position = info.position := by
      intro l' info hinfo
      obtain ⟨info', hinfo', hposition, -⟩ := hbranch.label_info hinfo
      exact ⟨info', hinfo', hposition⟩
    refine ⟨(), ⟨1, true, if c.reachable then [c.depth] else []⟩, rfl, ?_, ?_⟩
    · refine Code.shows_grown hc (height_height _) (fun l' d hl' => ?_) hc.distinct
        (fun l' info hl' hinfo => ?_) (fun l' info hinfo h => ?_) (fun i hi _ => ?_)
      · change c1.label? l' = _ ∧ _
        rw [hother l' fun h => (hc.loop l hloop).2 (h ▸ mem_map.mpr ⟨_, hl', rfl⟩)]
        exact hc.waiting l' d hl'
      · obtain ⟨info', hinfo', -⟩ := hkeep l' info hinfo
        exact ⟨⟨info', hinfo'⟩, (hc.loop l' hl').2⟩
      · rcases h with hplaced | hhand
        · obtain ⟨info', hinfo', hposition⟩ := hkeep l' info hinfo
          exact .inr ⟨info', hinfo', hposition ▸ hplaced⟩
        · exact .inl hhand
      · obtain rfl := Array.mem_singleton.mp hi
        exact .inr hloop
    · refine ⟨rfl, rfl, Nat.le_refl _, rfl, rfl, fun l' info hinfo hplaced => ?_, fun _ hl' => hl',
        fun _ => Option.isSome_of_mem hloop, fun l' p hl' hlabel => ?_, by simp [Code.grown],
        Nat.le_refl _, fun honward => ?_, fun _ _ hkept => ?_⟩
      · obtain ⟨info', hinfo', hposition⟩ := hkeep l' info hinfo
        exact ⟨info', hinfo', hposition ▸ hplaced⟩
      · obtain rfl : l = l' := Option.some_inj.mp (hloop.symm.trans hl')
        cases hbranch with
        | dead hdead => exact ⟨hlabel, by simp [hdead]⟩
        | backward hlive hinfo _ _ hdepth =>
          rw [hlabel] at hinfo
          cases hinfo
          exact ⟨hlabel, by simp [hlive, ← hdepth]⟩
        | forward _ hinfo hposition =>
          rw [hlabel] at hinfo
          cases hinfo
          cases hposition
      · obtain ⟨info0, hinfo0⟩ := (hc.loop l hloop).1
        refine honward.grown (fun l' info p hinfo hp => .inr ?_) (by simp) fun i hi _ hloop' => ?_
        · by_cases heq : l' = l
          · subst heq
            obtain ⟨info', hinfo', hposition⟩ := hkeep l' info0 hinfo0
            cases hinfo'.symm.trans hinfo
            exact ⟨info0, hinfo0, hposition ▸ hp⟩
          · exact ⟨info, (hother l' heq).symm.trans hinfo, hp⟩
        · obtain rfl := Array.mem_singleton.mp hi
          exact absurd hloop hloop'
      · obtain ⟨mine, before, hsound⟩ := hkept
        exact ⟨mine ++ [c.standing], before, hsound.jump hrun⟩

end Loop

end Emit

end ExprBackend
