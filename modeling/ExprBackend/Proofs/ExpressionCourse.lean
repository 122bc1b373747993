import ExprBackend.Proofs.Interception
import ExprBackend.Proofs.Tracking

/-! # Expressions follow their course

The code of an expression follows its course in every buffer, by induction over
the expression. The gate through which operands are emitted adds the check of
their promise. A cache may take over there: then the code first looks for the value
and runs the code of the expression only if it is not found, which comes to the
same standing behind it.
-/

namespace ExprBackend

open List

variable {c : Code} {change known : Int} {hands : List (Label × Int)} {n : Node} {r : Region}
  {x : Emit Unit} {α β : Type}

/-- The buffer with the code that empties a slot. -/
def Code.emptied (c : Code) (slot : Nat) : Code :=
  (c.appended .loadNone 0 1).appended .storeLocal slot (-1)

namespace Emit

variable {t : Course Unit} {after : α → β → List (Label × Int)}

/-- An instruction with a constant. -/
theorem follows_pooled {op : Opcode} {reads : Nat} (v : Value)
    (h : ∀ i, op.straight? i = some (reads, change)) :
    Follows hands (do append op (← addConstant v) change) (Course.step reads change)
      fun _ _ => hands := by
  intro marks c hc
  have halike := Code.Alike.pooled c v
  rw [run_bind, run_addConstant]
  split_ifs with hroom
  · have hfollows := follows_plain (h (c.constantIndex v)) marks _ (halike.shows hc)
    rw [halike.standing] at hfollows
    exact hfollows.of_moves halike.moves
  · exact fun hsize => absurd (Nat.le_trans hsize (Nat.le_max_right ..)) hroom

theorem follows_loadConst (v : Value) :
    Follows hands (loadConst v) (Course.step 0 1) fun _ _ => hands :=
  follows_pooled v fun _ => rfl

theorem follows_getAttr (name : Text) :
    Follows hands (getAttr name) (Course.step 1 0) fun _ _ => hands :=
  follows_pooled _ fun _ => rfl

theorem follows_loadMethod (name : Text) :
    Follows hands (loadMethod name) (Course.step 1 1) fun _ _ => hands :=
  follows_pooled _ fun _ => rfl

theorem follows_storeName (name : Text) :
    Follows hands (storeName name) (Course.step 1 (-1)) fun _ _ => hands := by
  refine Follows.silent (fun marks c => ⟨_, _, rfl, .declared c name⟩) fun slot => ?_
  exact follows_plain rfl

theorem follows_loadLocal (slot : Int) :
    Follows hands (loadLocal slot) (Course.step 0 1) fun _ _ => hands :=
  follows_plain rfl

theorem follows_loadName (name : Text) :
    Follows hands (loadName name) (Course.step 0 1) fun _ _ => hands := by
  intro marks c hc
  rw [loadName, run_get_bind]
  cases c.slot? name with
  | some slot => exact follows_loadLocal slot marks c hc
  | none => exact follows_pooled (.str name) (fun _ => rfl) marks c hc

/-- An instruction with a count. -/
theorem follows_counted {op : Opcode} {count reads : Nat} (hjump : op.isJump = false)
    (htable : op ≠ .jumpTable) (hwidth : op.width = 2) (hchange : change ≤ 1)
    (hcount : count ≤ reads) (hreads : op.reads count = reads)
    (heffect : op.change count = change) :
    Follows hands (append op count change) (Course.step reads change) fun _ _ => hands := by
  refine follows_append hjump htable hchange fun hsmall => ?_
  rw [decoded_word hwidth (by omega)]
  exact ⟨hreads, heffect⟩

theorem follows_transfer : Follows hands transfer Course.transfer fun _ _ => hands := by
  refine Follows.bind (follows_plain rfl) fun _ _ => ?_
  refine (follows_storeName _).bind fun _ _ => (follows_storeName _).bind fun _ _ => ?_
  intro marks c hc
  obtain ⟨l, c1, hrun, hshows, hloop, hmoves, hstanding⟩ := run_namedLabel_loop marks hc
  rw [run_bind, hrun, ← hstanding]
  exact (meets_jump_loop hshows hloop).of_moves hmoves

/-- A course may tell more than the emission. -/
theorem Follows.tell {x : Emit α} {known : β} (hx : Follows hands x t fun _ _ => hands)
    (hafter : ∀ a, after a known = hands) : Follows hands x (t >>= fun _ => pure known) after := by
  rw [← bind_pure x]
  exact hx.bind fun a _ => follows_pure (hafter a)

/-- Code that is emitted only where it can be reached. -/
theorem follows_reach (hx : Follows hands x t fun _ _ => hands) :
    Follows hands (do if (← get).reachable then x) (Course.reach t) fun _ _ => hands := by
  intro marks c hc
  rw [run_get_bind, Course.reach]
  cases hlive : c.reachable with
  | true =>
    rw [if_pos rfl, Code.standing, hlive, if_pos rfl, ← hlive]
    exact hx marks c hc
  | false =>
    rw [if_neg Bool.false_ne_true, Code.standing, hlive, if_neg Bool.false_ne_true, ← hlive]
    exact follows_pure (b := ()) rfl marks c hc

/-! ## Caches -/

/-- A cache without a handler behind it changes what it keeps. -/
theorem alike_regarded {id : Nat} (scratch : List (Text × Scratch)) {regions : List (Nat × Region)}
    (hopens : Opens c id r regions) (hnext : r.next = none) :
    c.Alike (c.regarded scratch regions) := by
  refine ⟨rfl, rfl, Nat.le_refl _, rfl, rfl, rfl, rfl, rfl, rfl, rfl, rfl, rfl, rfl,
    fun id' r' hr' => ?_⟩
  by_cases hid : id' = id
  · subst hid
    cases hopens.1.symm.trans hr'
    exact .inl hnext
  · exact .inr ⟨r', (hopens.2 id' hid).symm.trans hr', rfl⟩

/-- A slot for the dictionary that is not there is declared, and emptied in the prologue. -/
theorem yields_cacheSlot_new (marks : Marks) (hslot : c.slot? cacheSlotName = none)
    (houtside : c.inPrologue = false) :
    cacheSlot.Yields marks c (c.declaredSlot cacheSlotName) ((c.declared cacheSlotName).closed
      ((c.declared cacheSlotName).opened.emptied (c.declaredSlot cacheSlotName))) := by
  have hd : (c.declared cacheSlotName).inPrologue = false :=
    (Code.Alike.declared c cacheSlotName).inPrologue.trans houtside
  have hinner : ((do
      loadNone
      storeLocal (c.declaredSlot cacheSlotName) : Emit Unit) marks
        (c.declared cacheSlotName).opened : Except Failure Unit × Code) =
      (.ok (), (c.declared cacheSlotName).opened.emptied (c.declaredSlot cacheSlotName)) := rfl
  rw [cacheSlot, yields_get_bind, hslot]
  refine yields_bind.mpr ⟨_, _, yields_localSlot.mpr ⟨rfl, rfl⟩, ?_⟩
  refine yields_bind.mpr ⟨(), _, ?_, yields_pure.mpr ⟨rfl, rfl⟩⟩
  rw [Yields, prologue_of_outside _ _ hd, hinner]
  rfl

/-- The slot of the dictionary is found or declared, and is emptied in the prologue. -/
theorem follows_cacheSlot {f : Nat → Emit α} {t : Course β}
    (hf : ∀ slot, Follows hands (f slot) t after) : Follows hands (cacheSlot >>= f) t after := by
  intro marks c hc
  cases hslot : c.slot? cacheSlotName with
  | some slot =>
    have hrun : (cacheSlot marks c : Except Failure Nat × Code) = (.ok slot, c) := by
      rw [cacheSlot, run_get_bind, hslot]
      rfl
    rw [run_bind, hrun]
    exact hf slot marks c hc
  | none =>
    let d := c.declared cacheSlotName
    let slot := c.declaredSlot cacheSlotName
    let inner := d.opened.emptied slot
    have hd : d.Shows hands := (Code.Alike.declared c cacheSlotName).shows hc
    have hrun : (cacheSlot marks c : Except Failure Nat × Code) = (.ok slot, d.closed inner) :=
      yields_cacheSlot_new marks hslot hc.outside
    have hshows : (d.closed inner).Shows hands := by
      refine ⟨rfl, hd.normal, hd.waiting, hd.distinct, hd.loop, hd.aims, hd.tabled, fun i hi => ?_,
        hd.single⟩
      have hmem : i ∈ (d.prologue.push ⟨.loadNone, 0⟩).push ⟨.storeLocal, slot⟩ := hi
      rcases Array.mem_push.mp hmem with hmem | rfl
      · rcases Array.mem_push.mp hmem with hmem | rfl
        · exact hd.straight i hmem
        · rfl
      · rfl
    have hmoves : d.Moves (d.closed inner) .empty := by
      refine ⟨rfl, rfl, Nat.le_refl _, rfl, rfl, fun l info hinfo hplaced => ⟨info, hinfo, hplaced⟩,
        fun l hl => hl, fun h => absurd rfl h,
        fun l p _ hlabel => ⟨hlabel, fun e he => absurd he not_mem_nil⟩, Nat.le_refl _, ?_,
        fun honward => ⟨honward.jumps, fun i hi => ?_⟩, fun _ hroom hkept => ?_⟩
      · change d.prologue.size ≤ ((d.prologue.push _).push _).size
        simp
        omega
      · have hi : i ∈ ((d.prologue.push ⟨.loadNone, 0⟩).push ⟨.storeLocal, slot⟩).toList ++
          d.body.toList := hi
        have hplain := honward.plain i
        simp only [Code.instrs, Array.toList_push, mem_append, mem_singleton] at hi hplain
        rcases hi with ((hi | rfl) | rfl) | hi
        · exact hplain (.inl hi)
        · simp
        · simp
        · exact hplain (.inr hi)
      · obtain ⟨mine, before, hsound⟩ := hkept
        have hroom' : d.prologue.size + 2 + d.body.size ≤ 65535 := by
          have : (d.closed inner).prologue.size = d.prologue.size + 2 := by
            change ((d.prologue.push _).push _).size = _
            simp
          rw [this] at hroom
          exact hroom
        have hload : d.opened.Admits 1 .loadNone 0 1 :=
          Code.admits_plain rfl (by decide) (Int.le_refl 0) rfl (by decide)
        have hstore : (d.opened.appended .loadNone 0 1).Admits 1 .storeLocal slot (-1) :=
          Code.admits_plain rfl (by decide) (Int.le_refl 1) rfl (by simp)
        have hfirst := (hsound.opened hd.outside).appended (by omega)
          (by simp; omega) fun _ => hload
        have hsecond := hfirst.appended (by omega) (by simp; omega) fun _ => hstore
        exact ⟨mine, _, hsecond.closed rfl rfl⟩
    have htrans := (Code.Alike.declared c cacheSlotName).moves.trans hmoves
    have hstanding : (d.closed inner).standing = c.standing :=
      (Code.Alike.declared c cacheSlotName).standing
    have hrest := hf slot marks (d.closed inner) hshows
    rw [hstanding] at hrest
    rw [run_bind, hrun]
    exact hrest.of_moves htrans

theorem Follows.look {f : Code → Emit α} {t : Course β} (hf : ∀ c, Follows hands (f c) t after) :
    Follows hands (get >>= f) t after := fun marks c hc => hf c marks c hc

end Emit

namespace Course

/-- Code that is reached and comes to its end, one higher than it started. -/
def sealed (x : Course Unit) : Course Unit := fun s =>
  match x s with
  | none => none
  | some ((), s', log) =>
    if s.reachable = true ∧ s'.reachable = true ∧ height (s'.depth - s.depth) = 1 ∧
        height s'.depth = s'.depth then some ((), s', log)
    else none

variable {x : Course Unit} {s s' : Standing} {log : Log} {j' d : Int}

theorem sealed_eq_some :
    sealed x s = some ((), s', log) ↔ x s = some ((), s', log) ∧ s.reachable = true ∧
      s'.reachable = true ∧ height (s'.depth - s.depth) = 1 ∧ height s'.depth = s'.depth := by
  unfold sealed
  cases hx : x s with
  | none => simp
  | some r =>
    obtain ⟨⟨⟩, t, log'⟩ := r
    dsimp only
    constructor
    · intro h
      split at h
      next hpromise =>
        cases h
        exact ⟨rfl, hpromise⟩
      next => cases h
    · rintro ⟨heq, hpromise⟩
      cases heq
      rw [if_pos hpromise]

theorem sealed_eq (h : x s = some ((), s', log)) :
    sealed x s = some ((), s', log) ∨ sealed x s = none := by
  unfold sealed
  rw [h]
  dsimp only
  split
  · exact .inl rfl
  · exact .inr rfl

/-- The course along code that looks for a value. It tells what is known of the place behind the
code of the expression, and goes on where the value was not found. -/
def probe : Course Int := do
  step 0 1
  step 0 1
  step 2 (-1)
  let ready ← popJump (-1)
  step 0 1
  step 1 (-1)
  place ready
  step 0 1
  step 0 1
  step 2 (-1)
  let miss ← popJump (-1)
  step 0 1
  step 0 1
  step 2 (-1)
  let done ← jump (-1)
  place miss
  pure done

def keep (done : Int) : Course Unit := do
  step 1 1
  step 0 1
  step 0 1
  step 3 (-3)
  place done

/-- The course along code that looks for a value first, and keeps it when it is computed. -/
def cached (x : Course Unit) : Course Unit := do
  let done ← probe
  sealed x
  keep done

theorem step_at (reads : Nat) (d j : Int) (live : Bool) (hj : j + change = j') :
    step reads change ⟨height (d + j), live⟩ = some ((), ⟨height (d + j'), live⟩,
      ⟨1, !live || decide ((reads : Int) ≤ height (d + j)), []⟩) := by
  subst hj
  rw [step]
  dsimp only
  rw [← Int.add_assoc]
  simp only [height, Int.bmod_add_bmod]

theorem popJump_at (d j : Int) (hj : j + -1 = j') :
    popJump (-1) ⟨height (d + j), true⟩ = some (height (d + j'), ⟨height (d + j'), true⟩,
      ⟨1, decide (1 ≤ height (d + j)), []⟩) := by
  subst hj
  rw [popJump_eq, if_neg (by omega)]
  dsimp only
  rw [if_pos rfl, ← Int.add_assoc, Int.sub_eq_add_neg]
  simp only [height, Int.bmod_add_bmod, Bool.not_true, Bool.false_or]

theorem jump_at (d j : Int) :
    jump (-1) ⟨height (d + j), true⟩ = some (height (d + j), ⟨height (d + j), false⟩,
      ⟨1, decide (0 ≤ height (d + j)), []⟩) := by
  rw [jump_eq, if_neg (by omega)]
  simp only [if_true, height, Int.bmod_bmod, Bool.not_true, Bool.false_or]

theorem place_at (depth : Int) : place depth ⟨depth, true⟩ = some ((), ⟨depth, true⟩, .empty) := by
  simp [place]

/-- Where it can be reached, the place of a label has the height that is known of it. -/
theorem place_live (h : place known ⟨d, true⟩ = some ((), s', log)) :
    s' = ⟨d, true⟩ ∧ log = .empty ∧ (known < 0 ∨ known = d) := by
  rw [place, if_pos rfl] at h
  by_cases hfits : 0 ≤ known ∧ known ≠ d
  · rw [if_pos hfits] at h
    cases h
  · rw [if_neg hfits] at h
    cases h
    exact ⟨rfl, rfl, by omega⟩

theorem place_dead (known depth : Int) : place known ⟨depth, false⟩ =
    some ((), if 0 ≤ known then ⟨known, true⟩ else ⟨depth, false⟩, .empty) := by
  by_cases hknown : 0 ≤ known <;> simp [place, hknown]

theorem bind_leads {x : Course α} {f : α → Course β} {s'' : Standing} {a : α} {b : β} {log' : Log}
    (hx : x s = some (a, s', log)) (hf : f a s' = some (b, s'', log')) :
    (x >>= f) s = some (b, s'', log ++ log') :=
  bind_eq_some.mpr ⟨a, s', log, log', hx, hf, rfl⟩

/-- Looking for a value leaves the stack as it was, unless it cannot be reached at all. -/
theorem probe_at (d : Int) : ∃ log, log.transfers = [] ∧
    (0 ≤ d → d ≤ 65535 → log.fed = true) ∧
    probe ⟨height (d + 0), true⟩ = some (height (d + 1),
      if 0 ≤ height (d + 0) then ⟨height (d + 0), true⟩ else ⟨height (d + 1), false⟩, log) := by
  unfold probe
  refine ⟨_, ?_, ?_, bind_leads (step_at 0 d 0 true rfl) <| bind_leads (step_at 0 d 1 true rfl) <|
    bind_leads (step_at 2 d 2 true rfl) <| bind_leads (popJump_at d 1 rfl) <|
    bind_leads (step_at 0 d 0 true rfl) <| bind_leads (step_at 1 d 1 true rfl) <|
    bind_leads (place_at (height (d + 0))) <| bind_leads (step_at 0 d 0 true rfl) <|
    bind_leads (step_at 0 d 1 true rfl) <| bind_leads (step_at 2 d 2 true rfl) <|
    bind_leads (popJump_at d 1 rfl) <| bind_leads (step_at 0 d 0 true rfl) <|
    bind_leads (step_at 0 d 1 true rfl) <| bind_leads (step_at 2 d 2 true rfl) <|
    bind_leads (jump_at d 1) <| bind_leads (place_dead (height (d + 0)) (height (d + 1))) <|
    pure_apply (height (d + 1)) _⟩
  · simp
  · intro hlow hhigh
    have hheight : ∀ j : Int, 0 ≤ j → j ≤ 2 → height (d + j) = d + j := fun j hj hj' =>
      height_eq (by omega)
    have hhere : height d = d := height_eq (by omega)
    simp [hheight, hhere]
    omega

/-- Keeping a value leaves it on the stack. -/
theorem keep_at (h : keep known ⟨height (d + 1), true⟩ = some ((), s', log)) :
    s' = ⟨height (d + 1), true⟩ ∧ log.transfers = [] ∧ (0 ≤ d → d ≤ 65535 → log.fed = true) := by
  obtain ⟨_, _, _, _, hstep, h1, rfl⟩ := bind_eq_some.mp h
  cases (step_at 1 d 1 true (show (1 : Int) + 1 = 2 from rfl)).symm.trans hstep
  obtain ⟨_, _, _, _, hstep, h2, rfl⟩ := bind_eq_some.mp h1
  cases (step_at 0 d 2 true (show (2 : Int) + 1 = 3 from rfl)).symm.trans hstep
  obtain ⟨_, _, _, _, hstep, h3, rfl⟩ := bind_eq_some.mp h2
  cases (step_at 0 d 3 true (show (3 : Int) + 1 = 4 from rfl)).symm.trans hstep
  obtain ⟨_, _, _, _, hstep, h4, rfl⟩ := bind_eq_some.mp h3
  cases (step_at 3 d 4 true (show (4 : Int) + -3 = 1 from rfl)).symm.trans hstep
  obtain ⟨rfl, rfl, -⟩ := place_live h4
  refine ⟨rfl, rfl, fun hlow hhigh => ?_⟩
  have hheight : ∀ j : Int, 0 ≤ j → j ≤ 4 → height (d + j) = d + j := fun j hj hj' =>
    height_eq (by omega)
  simp [hheight]
  omega

/-- Looking for a value first comes to the same standing. -/
theorem of_cached {x : Course Unit} {s s' : Standing} {log : Log} (hlive : s.reachable = true)
    (hnormal : height s.depth = s.depth) (h : cached x s = some ((), s', log)) :
    ∃ log', x s = some ((), s', log') ∧ log'.size ≤ log.size ∧ log'.transfers = log.transfers ∧
      (log'.fed = true → 0 ≤ s.depth → s.depth ≤ 65535 → log.fed = true) := by
  obtain ⟨d, live⟩ := s
  cases hlive
  have hstart : height (d + 0) = d := by
    rw [Int.add_zero]
    exact hnormal
  obtain ⟨first, htransfers, hfed, hprobe⟩ := probe_at d
  obtain ⟨done, s1, log1, log2, hprobe', hrest, rfl⟩ := bind_eq_some.mp h
  rw [hstart] at hprobe
  cases hprobe.symm.trans hprobe'
  obtain ⟨_, s2, log3, log4, hsealed, hkeep, rfl⟩ := bind_eq_some.mp hrest
  obtain ⟨hx, hreached, hlive, hnet, hdepth⟩ := sealed_eq_some.mp hsealed
  have hd : 0 ≤ d := by
    by_contra hnot
    rw [if_neg hnot] at hreached
    cases hreached
  rw [if_pos hd] at hx hnet
  -- The value is one above where the code of the expression starts.
  have hone : height (d + 1) = s2.depth := by
    rw [← hdepth, ← hnet]
    dsimp only
    rw [height, height, Int.add_bmod_bmod, Int.add_comm, Int.sub_add_cancel]
    rfl
  have hs2 : s2 = ⟨height (d + 1), true⟩ := by
    obtain ⟨depth2, live2⟩ := s2
    cases hlive
    rw [hone]
  rw [hs2] at hkeep
  obtain ⟨rfl, htransfers', hfed'⟩ := keep_at hkeep
  refine ⟨log3, hs2 ▸ hx, ?_, by simp [htransfers, htransfers'], fun hfed3 hlow hhigh => ?_⟩
  · simp only [Log.append_size]
    omega
  · simp only [Log.append_fed, hfed hlow hhigh, hfed3, hfed' hlow hhigh, Bool.and_self]

end Course

namespace Emit

variable {t : Course Unit}

/-- The code of an expression that must come to its end, and what follows it. -/
theorem follows_sealed {u : Unit → Course Unit} {rest : Emit α} {e : CodeError}
    {after : α → Unit → List (Label × Int)} (hx : Follows hands x t fun _ _ => hands)
    (hsteady : Steadies [] x) (hrest : Follows hands rest (u ()) after) : Follows hands (do
      let before := (← get).depth
      x
      if !(← get).reachable || height ((← get).depth - before) != 1 then fail e
      rest) (Course.sealed t >>= u) after := by
  intro marks c hc
  have hfirst := hx marks c hc
  rw [run_get_bind, run_bind]
  rcases hrun : (x marks c : Except Failure Unit × Code) with ⟨result, c1⟩
  rw [hrun] at hfirst
  cases result with
  | error failure =>
    refine Excused.bind fun hroom hnone l p hloop hlabel => ?_
    rcases hfirst hroom hnone l p hloop hlabel with hrefused | ⟨b, s, log, d, hcourse, hd, hne, rfl⟩
    · exact .inl (by rw [Course.sealed, hrefused])
    · rcases Course.sealed_eq hcourse with hsealed | hsealed
      · exact .inr ⟨b, s, log, d, hsealed, hd, hne, rfl⟩
      · exact .inl hsealed
  | ok _ =>
    obtain ⟨b, log, hcourse, hshows, hmoves⟩ := hfirst
    dsimp only
    rw [run_get_bind, run_get_bind]
    have hreached : c1.reachable = true → c.reachable = true := by
      intro hlive
      by_contra hdead
      have := ((hsteady hrun rfl).dead (Bool.eq_false_iff.mpr hdead) nofun).1
      rw [hlive] at this
      cases this
    by_cases hbad : (!c1.reachable || height (c1.depth - c.depth) != 1) = true
    · rw [if_pos hbad]
      refine fun _ _ _ _ _ _ => .inl (Course.bind_of_none ?_)
      rcases Course.sealed_eq hcourse with hsealed | hsealed
      · obtain ⟨-, -, hlive, hnet, -⟩ := Course.sealed_eq_some.mp hsealed
        have hlive' : c1.reachable = true := hlive
        have hnet' : height (c1.depth - c.depth) = 1 := hnet
        simp [hlive', hnet'] at hbad
      · exact hsealed
    · rw [if_neg hbad]
      have hbad' : c1.reachable = true ∧ height (c1.depth - c.depth) = 1 := by simpa using hbad
      have hsealed : Course.sealed t c.standing = some ((), c1.standing, log) :=
        Course.sealed_eq_some.mpr
          ⟨hcourse, hreached hbad'.1, hbad'.1, hbad'.2, hshows.normal⟩
      exact Meets.bind hsealed hmoves (hrest marks c1 hshows)

/-- Code that looks for a value first follows its course. -/
theorem follows_cached (hx : ∀ hands, Follows hands x t fun _ _ => hands) (hsteady : Steadies [] x)
    (ordinal : Int) (n : Node) :
    Follows hands (cached ordinal n x) (Course.cached t) fun _ _ => hands := by
  refine follows_cacheSlot fun slot => Follows.look fun _ => ?_
  refine Follows.silent (fun marks c => ⟨_, _, rfl, .noted ..⟩) fun _ => ?_
  refine follows_newLabel fun ready => follows_newLabel fun miss => follows_newLabel fun done => ?_
  simp only [Course.cached, Course.probe, Course.keep, Course.bind_assoc, Course.pure_bind]
  refine (follows_loadLocal slot).bind fun _ _ => ?_
  refine Follows.bind (follows_plain rfl) fun _ _ => ?_
  refine Follows.bind (follows_plain rfl) fun _ _ => ?_
  refine Follows.bind (follows_popJump (.inl rfl) [_, _] ready (-1)) fun _ readyAt => ?_
  refine Follows.bind (follows_plain rfl) fun _ _ => ?_
  refine Follows.bind (follows_plain rfl) fun _ _ => ?_
  refine Follows.bind (follows_mark [_, _] ready readyAt) fun _ _ => ?_
  refine (follows_loadConst _).bind fun _ _ => ?_
  refine (follows_loadLocal slot).bind fun _ _ => ?_
  refine Follows.bind (follows_plain rfl) fun _ _ => ?_
  refine Follows.bind (follows_popJump (.inl rfl) [_] miss (-1)) fun _ missAt => ?_
  refine (follows_loadLocal slot).bind fun _ _ => ?_
  refine (follows_loadConst _).bind fun _ _ => ?_
  refine Follows.bind (follows_plain rfl) fun _ _ => ?_
  refine Follows.bind (follows_jump [] done (-1)) fun _ doneAt => ?_
  refine Follows.bind (follows_mark [_] miss missAt) fun _ _ => ?_
  refine follows_sealed (hx _) hsteady ?_
  refine Follows.bind (follows_plain rfl) fun _ _ => ?_
  refine (follows_loadLocal slot).bind fun _ _ => ?_
  refine (follows_loadConst _).bind fun _ _ => ?_
  refine Follows.bind (follows_plain rfl) fun _ _ => ?_
  exact follows_mark [] done doneAt

/-- A cache that takes over does not change the course. -/
theorem follows_interceptable (hx : ∀ hands, Follows hands x t fun _ _ => hands)
    (hsteady : Steadies [] x) : Follows hands (interceptable n x) t fun _ _ => hands := by
  intro marks c hc
  cases hinterceptor : c.interceptor with
  | none =>
    rw [interceptable, run_get_bind, hinterceptor]
    exact hx hands marks c hc
  | some first =>
    obtain ⟨id, rfl, hnext⟩ := hc.single first hinterceptor
    rcases hrun : (interceptable n x marks c : Except Failure Unit × Code) with ⟨result, c'⟩
    cases result with
    | error failure =>
      intro _ hnone
      rw [hinterceptor] at hnone
      cases hnone
    | ok u =>
      obtain ⟨-, -, _, hfail⟩ | ⟨r, scratch, regions, hr, hopens, h⟩ :=
        run_interceptable marks n x hinterceptor hnext
      · cases hrun.symm.trans hfail
      have hlast : r.next = none := by
        rcases hr with hr | ⟨ordinal, rfl⟩
        · exact hnext r hr
        · rfl
      have halike := alike_regarded scratch hopens ((r.offered_next n _).trans hlast)
      have hc1 := halike.shows hc
      rw [hrun] at h
      split_ifs at h with htaken
      · have hfollows := follows_cached hx hsteady r.ordinal n marks _ hc1
        rw [← h] at hfollows
        have hlive : c.reachable = true := (Bool.and_eq_true_iff.mp (r.offered_taken htaken)).2
        obtain ⟨⟨⟩, log, hcourse, hshows, hmoves⟩ := hfollows
        obtain ⟨log', hcourse', hsize, htransfers, hfed⟩ :=
          @Course.of_cached _ (c.regarded scratch regions).standing _ _
            (halike.reachable.trans hlive) hc1.normal hcourse
        rw [halike.standing] at hcourse'
        have htrans := halike.moves.trans hmoves
        rw [Log.empty_append] at htrans
        refine ⟨(), log', hcourse', hshows,
          htrans.of_log hsize htransfers fun hfed' hroom hkept => ?_⟩
        obtain ⟨mine, before, hsound⟩ := hkept
        obtain ⟨hlow, -, hhigh⟩ := hsound.depth_bounds hlive
        have hbody := htrans.size
        have hprologue := htrans.room
        rw [Array.length_toList] at hhigh
        refine hfed hfed' ?_ ?_
        · rw [halike.standing]
          exact hlow
        · rw [halike.standing]
          change c.depth ≤ 65535
          omega
      · have hfollows := hx hands marks _ hc1
        rw [← h, halike.standing] at hfollows
        exact Meets.of_moves hfollows halike.moves

/-- The gate checks the promise of an expression. -/
theorem follows_expression (hx : ∀ hands, Follows hands x t fun _ _ => hands)
    (hsteady : Steadies [] x) :
    Follows hands (expression n x) (Course.promised n.effect t) fun _ _ => hands := by
  intro marks c hc
  have hnoted := Code.Alike.noted c (n.lazySignature :: c.emitting) c.events c.observations
  have hinner := follows_interceptable (n := n) hx hsteady marks _ (hnoted.shows hc)
  rcases hrun : (interceptable n x marks (c.noted (n.lazySignature :: c.emitting) c.events
    c.observations) : Except Failure Unit × Code) with ⟨result, c1⟩
  rw [hrun] at hinner
  rw [run_expression hrun]
  cases result with
  | error failure =>
    intro hroom hnone l p hloop hlabel
    rcases hinner hroom hnone l p hloop hlabel with hrefused | ⟨b, s, log, d, hcourse, hd, hne, rfl⟩
    · left
      rw [Course.promised]
      change t c.standing = none at hrefused
      rw [hrefused]
    · change t c.standing = _ at hcourse
      cases hpromised : Course.promised n.effect t c.standing with
      | none => exact .inl rfl
      | some r =>
        obtain ⟨⟨⟩, s', log'⟩ := r
        obtain ⟨heq, -⟩ := Course.promised_eq_some.mp hpromised
        cases hcourse.symm.trans heq
        exact .inr ⟨_, _, _, d, rfl, hd, hne, rfl⟩
  | ok u =>
    obtain ⟨⟨⟩, log, hcourse, hshows, hmoves⟩ := hinner
    change t c.standing = _ at hcourse
    rw [gated]
    by_cases hbad : (c1.reachable && height (c1.depth - c.depth) != n.effect) = true
    · rw [if_pos hbad]
      refine fun _ _ _ _ _ _ => .inl ?_
      rw [Course.promised, hcourse]
      exact if_pos hbad
    · rw [if_neg hbad]
      refine ⟨(), log, ?_, (Code.Alike.noted c1 _ _ _).shows hshows, ?_⟩
      · refine Course.promised_eq_some.mpr ⟨hcourse, fun hlive => ?_⟩
        have hlive' : c1.reachable = true := hlive
        rw [hlive', Bool.true_and, bne_iff_ne, not_not] at hbad
        exact hbad
      · have htrans := hnoted.moves.trans hmoves
        rw [Log.empty_append] at htrans
        rw [← Log.append_empty log]
        exact htrans.trans (Code.Alike.noted c1 _ _ _).moves

end Emit

/-! ## Expressions -/

namespace Node

open Emit

variable {ns : List Node} {links : List (CompareOp × Node)}

/-- The code of an operand follows its course. -/
def OnCourse (n : Node) : Prop :=
  ∀ hands, Follows hands (expression n n.emit) n.course fun _ _ => hands

theorem follows_emitAll (h : ∀ m ∈ ns, m.OnCourse) :
    Follows hands (emitAll ns) (courseAll ns) fun _ _ => hands := by
  induction ns with
  | nil =>
    rw [courseAll]
    exact follows_pure rfl
  | cons n rest ih =>
    rw [forall_mem_cons] at h
    rw [courseAll]
    exact (h.1 _).bind fun _ _ => ih h.2

theorem courseLinks_cons (known : Int) (op : CompareOp) (n : Node) (link : CompareOp × Node)
    (rest : List (CompareOp × Node)) :
    courseLinks known ((op, n) :: link :: rest) = (do
      n.course
      Course.step 1 1
      Course.step 3 0
      Course.step 2 (-1)
      courseLinks (← Course.jumpOrPop known) (link :: rest)) := by
  rw [courseLinks]
  · rfl
  · simp

theorem follows_emitLinks (before : List (Label × Int)) {cleanup : Label}
    (h : ∀ m ∈ links.map Prod.snd, m.OnCourse) :
    Follows (before ++ (cleanup, known) :: hands) (emitLinks cleanup links)
      (courseLinks known links) fun _ known => before ++ (cleanup, known) :: hands := by
  induction links generalizing known with
  | nil =>
    rw [courseLinks]
    exact follows_pure rfl
  | cons link rest ih =>
    obtain ⟨op, n⟩ := link
    rw [map_cons, forall_mem_cons] at h
    cases rest with
    | nil =>
      rw [courseLinks]
      refine (h.1 _).bind fun _ _ => Follows.tell ?_ fun _ => rfl
      exact follows_plain rfl
    | cons second others =>
      rw [emitLinks, emitLinksBy_cons, courseLinks_cons]
      refine (h.1 _).bind fun _ _ => ?_
      refine Follows.bind (follows_plain rfl) fun _ _ => ?_
      refine Follows.bind (follows_plain rfl) fun _ _ => ?_
      refine Follows.bind (follows_plain rfl) fun _ _ => ?_
      exact Follows.bind (follows_jumpOrPop (.inl rfl) before cleanup known) fun _ _ => ih h.2

theorem courseOperands_cons (known : Int) (n m : Node) (rest : List Node) :
    courseOperands known (n :: m :: rest) = (do
      n.course
      courseOperands (← Course.jumpOrPop known) (m :: rest)) := by
  rw [courseOperands]
  · rfl
  · simp

theorem follows_emitOperands (junction : Junction) {done : Label} (h : ∀ m ∈ ns, m.OnCourse) :
    Follows ((done, known) :: hands) (emitOperands junction done ns) (courseOperands known ns)
      fun _ known => (done, known) :: hands := by
  induction ns generalizing known with
  | nil =>
    rw [courseOperands]
    exact follows_pure rfl
  | cons n rest ih =>
    rw [forall_mem_cons] at h
    cases rest with
    | nil =>
      rw [courseOperands]
      exact (h.1 _).tell fun _ => rfl
    | cons second others =>
      rw [emitOperands, emitOperandsBy_cons, courseOperands_cons]
      refine (h.1 _).bind fun _ _ => Follows.bind ?_ fun _ _ => ih h.2
      cases junction with
      | and => exact follows_jumpOrPop (.inl rfl) [] done known
      | or => exact follows_jumpOrPop (.inr rfl) [] done known

theorem courseSteps_cons (n m : Node) (rest : List Node) :
    courseSteps (n :: m :: rest) = (do
      n.course
      Course.reach (if 0 < n.effect then do
          Course.step 1 (-1)
          courseSteps (m :: rest)
        else courseSteps (m :: rest))) := by
  rw [courseSteps]
  · rfl
  · simp

theorem follows_emitSteps (h : ∀ m ∈ ns, m.OnCourse) :
    Follows hands (emitSteps ns) (courseSteps ns) fun _ _ => hands := by
  induction ns with
  | nil =>
    rw [courseSteps]
    exact follows_pure rfl
  | cons n rest ih =>
    rw [forall_mem_cons] at h
    cases rest with
    | nil =>
      rw [courseSteps]
      exact h.1 _
    | cons second others =>
      rw [emitSteps, emitStepsBy_cons, courseSteps_cons]
      refine (h.1 _).bind fun _ _ => follows_reach ?_
      rw [popEffect]
      split
      · exact Follows.bind (follows_plain rfl) fun _ _ => ih h.2
      · rw [pure_bind]
        exact ih h.2

theorem follows_emitBound {bound : Option Node} (h : ∀ m ∈ bound.toList, m.OnCourse) :
    Follows hands (emitBound bound) (courseBound bound) fun _ _ => hands := by
  cases bound with
  | none =>
    rw [courseBound]
    exact follows_plain rfl
  | some n =>
    rw [courseBound]
    exact h n (by simp) hands

theorem follows_emitStar {star : Option Node} (h : ∀ m ∈ star.toList, m.OnCourse) :
    Follows hands (emitStar star) (courseStar star) fun _ _ => hands := by
  cases star with
  | none =>
    rw [courseStar]
    exact follows_pure rfl
  | some n =>
    rw [courseStar]
    exact (h n (by simp) hands).bind fun _ _ => follows_plain rfl

theorem follows_emitDoubleStar {doubleStar : Option Node} (h : ∀ m ∈ doubleStar.toList,
    m.OnCourse) :
    Follows hands (emitDoubleStar doubleStar) (courseStar doubleStar) fun _ _ => hands := by
  cases doubleStar with
  | none =>
    rw [courseStar]
    exact follows_pure rfl
  | some n =>
    rw [courseStar]
    exact (h n (by simp) hands).bind fun _ _ => follows_plain rfl

theorem follows_emitKeywords {keywords : List (Text × Node)}
    (h : ∀ m ∈ keywords.map Prod.snd, m.OnCourse) :
    Follows hands (emitKeywords keywords) (courseKeywords keywords) fun _ _ => hands := by
  induction keywords with
  | nil =>
    rw [courseKeywords]
    exact follows_pure rfl
  | cons keyword rest ih =>
    obtain ⟨name, n⟩ := keyword
    rw [map_cons, forall_mem_cons] at h
    rw [courseKeywords]
    exact (follows_loadConst _).bind fun _ _ => (h.1 _).bind fun _ _ => ih h.2

/-- The course along the code of a callee; it tells whether there is a receiver on the stack. -/
def courseCallee (callee : Node) (method : Bool) : Course Bool :=
  match callee, method with
  | .attr base _, true => do
    base.course
    Course.step 1 1
    pure true
  | callee, _ => do
    callee.course
    pure false

theorem ownCourse_call (callee : Node) (args : List Node) (star : Option Node)
    (keywords : List (Text × Node)) (doubleStar : Option Node) (method : Bool) :
    (Node.call callee args star keywords doubleStar method).ownCourse = (do
      let withReceiver ← courseCallee callee method
      courseAll args
      if star.isNone && doubleStar.isNone && keywords.isEmpty then
        if withReceiver then Course.step (args.length + 2) (-args.length - 1)
        else Course.step (args.length + 1) (-args.length)
      else
        Course.step args.length (1 - args.length)
        courseStar star
        courseKeywords keywords
        Course.step (2 * keywords.length) (1 - 2 * keywords.length)
        courseStar doubleStar
        if withReceiver then Course.step 4 (-3) else Course.step 3 (-2)) := by
  cases callee <;> cases method <;>
    simp only [ownCourse, courseCallee, course, Course.bind_assoc, Course.pure_bind]

/-- What follows a callee depends on whether there is a receiver. -/
theorem follows_emitCallee {callee : Node} {method : Bool} (h : callee.OnCourse)
    (hbelow : ∀ m ∈ callee.children, m.OnCourse) {rest : Bool → Emit Unit} {u : Bool → Course Unit}
    (hrest : ∀ withReceiver, Follows hands (rest withReceiver) (u withReceiver) fun _ _ => hands) :
    Follows hands (emitCallee callee method >>= rest) (courseCallee callee method >>= u)
      fun _ _ => hands := by
  unfold emitCallee emitCalleeBy courseCallee
  split
  next base name =>
    simp only [bind_assoc, pure_bind, Course.bind_assoc, Course.pure_bind]
    refine (hbelow base (by simp) hands).bind fun _ _ => ?_
    exact (follows_loadMethod name).bind fun _ _ => hrest true
  next =>
    simp only [bind_assoc, pure_bind, Course.bind_assoc, Course.pure_bind]
    exact (h hands).bind fun _ _ => hrest false

theorem ownCourse_compare_chain (subject : Node) (h : links.length ≠ 1) :
    (Node.compare subject links).ownCourse = (do
      subject.course
      let cleanup ← courseLinks (-1) links
      let done ← Course.jump (-1)
      Course.place cleanup
      Course.step 2 0
      Course.step 1 (-1)
      Course.place done) := by
  rw [ownCourse]
  · rfl
  · rintro op operand rfl
    exact h rfl

/-- The code of an expression follows its course if that of its operands does. -/
theorem follows_emit (ih : ∀ m ∈ n.children, m.OnCourse)
    (ihBelow : ∀ m ∈ n.children, ∀ k ∈ m.children, k.OnCourse) :
    Follows hands n.emit n.ownCourse fun _ _ => hands := by
  unfold emit
  cases n with
  | const v signature =>
    rw [ownCourse]
    exact follows_loadConst v
  | var name =>
    rw [ownCourse]
    exact follows_loadName name
  | unary op operand =>
    rw [ownCourse]
    exact (ih operand (by simp) _).bind fun _ _ => follows_plain rfl
  | binary op left right =>
    rw [ownCourse]
    exact (ih left (by simp) _).bind fun _ _ =>
      (ih right (by simp) _).bind fun _ _ => follows_plain rfl
  | compare subject links =>
    have hlinks : ∀ m ∈ links.map Prod.snd, m.OnCourse := fun m hm =>
      ih m (mem_cons_of_mem _ hm)
    by_cases hsingle : links.length = 1
    · obtain ⟨⟨op, n⟩, rfl⟩ := length_eq_one_iff.mp hsingle
      rw [emitBy_compare_single, ownCourse]
      exact (ih subject (by simp) _).bind fun _ _ =>
        (hlinks n (by simp) _).bind fun _ _ => follows_plain rfl
    · rw [emitBy_compare_chain _ subject hsingle, ownCourse_compare_chain subject hsingle]
      refine (ih subject (by simp) _).bind fun _ _ =>
        follows_newLabel fun cleanup => follows_newLabel fun done => ?_
      refine Follows.bind (follows_emitLinks [(done, -1)] hlinks) fun _ cleanupAt => ?_
      refine Follows.bind (follows_jump [] done (-1)) fun _ doneAt => ?_
      refine Follows.bind (follows_mark [_] cleanup cleanupAt) fun _ _ => ?_
      refine Follows.bind (follows_plain rfl) fun _ _ => ?_
      refine Follows.bind (follows_plain rfl) fun _ _ => ?_
      exact follows_mark [] done doneAt
  | logical junction operands =>
    rw [ownCourse]
    exact follows_newLabel fun done => Follows.bind (follows_emitOperands junction ih)
      fun _ known => follows_mark [] done known
  | cond test yes no =>
    rw [ownCourse]
    refine follows_newLabel fun otherwise => follows_newLabel fun done => ?_
    refine (ih test (by simp) _).bind fun _ _ => ?_
    refine Follows.bind (follows_popJump (.inl rfl) [_] otherwise (-1)) fun _ otherwiseAt => ?_
    refine (ih yes (by simp) _).bind fun _ _ => ?_
    refine Follows.bind (follows_jump [] done (-1)) fun _ doneAt => ?_
    refine Follows.bind (follows_mark [_] otherwise otherwiseAt) fun _ _ => ?_
    refine (ih no (by simp) _).bind fun _ _ => ?_
    exact follows_mark [] done doneAt
  | collection kind elements =>
    cases kind with
    | list | tuple =>
      rw [ownCourse]
      exact (follows_emitAll ih).bind fun _ _ =>
        follows_counted rfl (by decide) rfl (by omega) (Nat.le_refl _) rfl rfl
    | dict =>
      rw [ownCourse]
      exact (follows_emitAll ih).bind fun _ _ =>
        follows_counted rfl (by decide) rfl (by omega) (by omega) rfl rfl
  | subscript base index =>
    rw [ownCourse]
    exact (ih base (by simp) _).bind fun _ _ =>
      (ih index (by simp) _).bind fun _ _ => follows_plain rfl
  | sliceObj start stop step =>
    simp only [children, present_cons, present_nil, append_nil, forall_mem_append] at ih
    rw [ownCourse]
    exact (follows_emitBound ih.1).bind fun _ _ => (follows_emitBound ih.2.1).bind fun _ _ =>
      (follows_emitBound ih.2.2).bind fun _ _ => follows_plain rfl
  | slice base start stop step =>
    simp only [children, present_cons, present_nil, append_nil, forall_mem_append,
      forall_mem_cons] at ih
    rw [ownCourse]
    exact (ih.1 _).bind fun _ _ => (follows_emitBound ih.2.1).bind fun _ _ =>
      (follows_emitBound ih.2.2.1).bind fun _ _ => (follows_emitBound ih.2.2.2).bind fun _ _ =>
      Follows.bind (follows_plain rfl) fun _ _ =>
        follows_plain rfl
  | attr base name =>
    rw [ownCourse]
    exact (ih base (by simp) _).bind fun _ _ => follows_getAttr name
  | call callee args star keywords doubleStar method =>
    rw [emitBy_call, ownCourse_call]
    refine follows_emitCallee (ih callee (by simp)) (ihBelow callee (by simp))
      fun withReceiver => ?_
    refine (follows_emitAll fun m hm => ih m (by simp [hm])).bind fun _ _ => ?_
    split
    · split
      · exact follows_counted rfl (by decide) rfl (by omega) (by omega) rfl rfl
      · exact follows_counted rfl (by decide) rfl (by omega) (by omega) rfl rfl
    · refine Follows.bind (follows_counted rfl (by decide) rfl (by omega) (Nat.le_refl _) rfl rfl)
        fun _ _ => ?_
      refine (follows_emitStar fun m hm => ih m (by simp_all [children])).bind fun _ _ => ?_
      refine (follows_emitKeywords fun m hm => ih m (by simp_all [children])).bind fun _ _ => ?_
      refine Follows.bind (follows_counted rfl (by decide) rfl (by omega) (by omega) rfl rfl)
        fun _ _ => ?_
      refine (follows_emitDoubleStar fun m hm => ih m (by simp_all [children])).bind fun _ _ => ?_
      cases withReceiver with
      | false | true => exact follows_plain rfl
  | store name value =>
    rw [ownCourse]
    exact (ih value (by simp) _).bind fun _ _ => follows_storeName name
  | sequence steps =>
    rw [ownCourse]
    exact follows_emitSteps ih
  | next pair =>
    rw [ownCourse]
    exact (ih pair (by simp) _).bind fun _ _ => follows_transfer

/-- The code of every expression follows its course. -/
theorem onCourse (n : Node) : n.OnCourse := by
  induction n using descent with
  | h n ih ihBelow =>
    exact fun hands => follows_expression (fun _ => follows_emit ih ihBelow)
      (related_emit steady.sequential steady.congruence.loadConst
        (n.named steady.congruence.toCompositional) (fun m _ => steady.related m)
        fun _ _ k _ => steady.related k)

end Node

end ExprBackend
