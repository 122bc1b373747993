import ExprBackend.Proofs.ExpressionCourse

/-! # Courses that are supplied with operands

An instruction that can be reached has to find its operands. Most expressions see
to it by the check of their promise: if an operand has left no value, the height is
wrong at the end. The check says nothing if the end cannot be reached, or if it is
reached only with too low a stack. Then what is popped on the way has to be there
for another reason.
-/

namespace ExprBackend

open List

variable {change d effect known known' : Int} {log : Log} {s s' : Standing} {x : Course Unit}
  {α : Type} {a : α}

namespace Course

/-! ## Code that is not reached -/

/-- Where it is not reached, the code is reached nowhere. -/
def Still {α : Type} (x : Course α) (b : α) : Prop :=
  ∀ d b' s' log, x ⟨d, false⟩ = some (b', s', log) →
    b' = b ∧ s'.reachable = false ∧ log.fed = true

section Still

variable {β : Type}

theorem still_pure (a : α) : Still (pure a) a := by
  intro d b' s' log h
  cases h
  exact ⟨rfl, rfl, rfl⟩

theorem still_bind {x : Course α} {f : α → Course β} {b : β} (hx : Still x a) (hf : Still (f a) b) :
    Still (x >>= f) b := by
  intro d b' s' log h
  obtain ⟨a', ⟨d1, live⟩, log1, log2, hfirst, hsecond, rfl⟩ := bind_eq_some.mp h
  obtain ⟨rfl, hdead, hfed1⟩ := hx _ _ _ _ hfirst
  cases hdead
  obtain ⟨rfl, hdead', hfed2⟩ := hf _ _ _ _ hsecond
  exact ⟨rfl, hdead', by simp [hfed1, hfed2]⟩

theorem still_step (reads : Nat) (change : Int) : Still (step reads change) () := by
  intro d b' s' log h
  cases h
  exact ⟨rfl, rfl, rfl⟩

theorem still_jump (known : Int) : Still (jump known) known := by
  intro d b' s' log h
  rw [jump_eq, if_neg fun h => Bool.false_ne_true h.1] at h
  cases h
  exact ⟨rfl, rfl, rfl⟩

theorem still_popJump (known : Int) : Still (popJump known) known := by
  intro d b' s' log h
  rw [popJump_eq, if_neg fun h => Bool.false_ne_true h.1] at h
  cases h
  exact ⟨rfl, rfl, rfl⟩

theorem still_jumpOrPop (known : Int) : Still (jumpOrPop known) known := by
  intro d b' s' log h
  rw [jumpOrPop_eq, if_neg fun h => Bool.false_ne_true h.1] at h
  cases h
  exact ⟨rfl, rfl, rfl⟩

/-- A label that nothing has jumped to is not reached either. -/
theorem still_place (hknown : known < 0) : Still (place known) () := by
  intro d b' s' log h
  rw [place_dead, if_neg (by omega)] at h
  cases h
  exact ⟨rfl, rfl, rfl⟩

theorem still_reach (x : Course Unit) : Still (reach x) () := by
  intro d b' s' log h
  cases h
  exact ⟨rfl, rfl, rfl⟩

theorem still_transfer : Still transfer () := by
  refine still_bind (still_step _ _) <| still_bind (still_step _ _) <| still_bind
    (still_step _ _) ?_
  intro d b' s' log h
  cases h
  exact ⟨rfl, rfl, rfl⟩

theorem still_promised (hx : Still x ()) : Still (promised effect x) () := by
  intro d b' s' log h
  exact hx d b' s' log (promised_eq_some.mp h).1

end Still

/-! ## Code that is reached -/

/-- The code finds its operands if there are as many as it needs, and at its end the stack has
changed by its effect. It comes there by at least so many instructions. -/
structure Feeds (need : Nat) (x : Course Unit) (effect : Int) (count : Nat) : Prop where
  still : Still x ()
  bounded : effect ≤ count
  fed : ∀ (d : Int) (s' : Standing) (log : Log), x ⟨d, true⟩ = some ((), s', log) →
    (∀ t ∈ log.transfers, t = 0) → (need : Int) ≤ d → d + log.size ≤ 65535 →
    log.fed = true ∧ (s'.reachable = true → s'.depth = d + effect ∧ count ≤ log.size)

section Feeds

variable {need need' count count' : Nat} {effect' : Int} {y : Course Unit}

theorem feeds_pure (need : Nat) : Feeds need (pure ()) 0 0 := by
  refine ⟨still_pure _, by omega, fun d s' log h _ _ _ => ?_⟩
  cases h
  exact ⟨rfl, fun _ => ⟨(Int.add_zero d).symm, Nat.le_refl _⟩⟩

theorem feeds_step {reads : Nat} (hchange : -(reads : Int) ≤ change ∧ change ≤ 1) :
    Feeds reads (step reads change) change 1 := by
  refine ⟨still_step _ _, hchange.2, fun d s' log h _ hneed hroom => ?_⟩
  cases h
  have hroom' : d ≤ 65535 := by
    dsimp only at hroom
    omega
  exact ⟨by simpa using hneed, fun _ => ⟨height_eq (by dsimp only; omega), Nat.le_refl _⟩⟩

theorem Feeds.mono (h : Feeds need x effect count) (hneed : need ≤ need') (hcount : count' ≤ count)
    (hbounded : effect ≤ count') : Feeds need' x effect count' := by
  refine ⟨h.still, hbounded, fun d s' log hx htransfers hd hroom => ?_⟩
  obtain ⟨hfed, hend⟩ := h.fed d s' log hx htransfers (by omega) hroom
  refine ⟨hfed, fun hlive => ?_⟩
  obtain ⟨hdepth, hsize⟩ := hend hlive
  exact ⟨hdepth, Nat.le_trans hcount hsize⟩

/-- Behind code that finds its operands a course goes on with the effect of that code, or where it
cannot be reached. -/
theorem Feeds.split {f : Course α} {b : α} (hx : Feeds need x effect count) (hf : Still f a)
    (h : (x >>= fun _ => f) ⟨d, true⟩ = some (b, s', log)) (htransfers : ∀ t ∈ log.transfers, t = 0)
    (hd : (need : Int) ≤ d) (hroom : d + log.size ≤ 65535) :
    (b = a ∧ ¬s'.reachable = true ∧ log.fed = true) ∨ ∃ log1 log2, log = log1 ++ log2 ∧
    log1.fed = true ∧
      count ≤ log1.size ∧ (∀ t ∈ log2.transfers, t = 0) ∧ d + (log1.size + log2.size) ≤ 65535 ∧
      f ⟨d + effect, true⟩ = some (b, s', log2) := by
  obtain ⟨⟨⟩, ⟨d1, live⟩, log1, log2, hfirst, hrest, rfl⟩ := bind_eq_some.mp h
  simp only [Log.append_transfers, forall_mem_append] at htransfers
  simp only [Log.append_size, Int.natCast_add] at hroom
  obtain ⟨hfed, hend⟩ := hx.fed d _ log1 hfirst htransfers.1 hd (by omega)
  cases live with
  | false =>
    obtain ⟨rfl, hdead, hfed'⟩ := hf _ _ _ _ hrest
    exact .inl ⟨rfl, by simp [hdead], by simp [hfed, hfed']⟩
  | true =>
    obtain ⟨hdepth, hsize⟩ := hend rfl
    dsimp only at hdepth
    subst hdepth
    exact .inr ⟨log1, log2, rfl, hfed, hsize, htransfers.2, hroom, hrest⟩

theorem feeds_bind (hneed : (need' : Int) ≤ need + effect) (hx : Feeds need x effect count)
    (hy : Feeds need' y effect' count') :
    Feeds need (x >>= fun _ => y) (effect + effect') (count + count') := by
  have hbounded := hx.bounded
  have hbounded' := hy.bounded
  refine ⟨still_bind hx.still hy.still, by omega, fun d s' log h htransfers hd hroom => ?_⟩
  obtain ⟨-, hdead, hfed⟩ | ⟨log1, log2, rfl, hfed1, hsize, hnone, hfits, hsecond⟩ :=
    hx.split hy.still h htransfers hd hroom
  · exact ⟨hfed, fun hlive => absurd hlive hdead⟩
  · obtain ⟨hfed2, hend2⟩ := hy.fed _ _ log2 hsecond hnone (by omega) (by omega)
    refine ⟨by simp [hfed1, hfed2], fun hlive => ?_⟩
    obtain ⟨hdepth, hsize'⟩ := hend2 hlive
    refine ⟨by omega, ?_⟩
    simp only [Log.append_size]
    omega

/-- A promise that is kept anyway can be checked. -/
theorem feeds_check (hx : Feeds need x effect count) :
    Feeds need (promised effect x) effect count := by
  refine ⟨still_promised hx.still, hx.bounded, fun d s' log h => ?_⟩
  exact hx.fed d s' log (promised_eq_some.mp h).1

/-- Instructions of which the first needs most operands, whether or not they find them. -/
def Straight (need : Nat) (y : Course Unit) (change : Int) : Prop :=
  ∀ s : Standing, ∃ log, y s = some ((), ⟨height (s.depth + change), s.reachable⟩, log) ∧
    1 ≤ log.size ∧ log.transfers = [] ∧
    (s.reachable = false ∨ (need : Int) ≤ s.depth ∧ s.depth ≤ 65535 → log.fed = true)

theorem straight_step (reads : Nat) (change : Int) : Straight reads (step reads change) change := by
  refine fun s => ⟨_, rfl, Nat.le_refl _, rfl, fun h => ?_⟩
  rcases h with hdead | ⟨hreads, -⟩
  · simp [hdead]
  · simp [hreads]

/-- The operands come first, and the check at the end makes sure that each of them has a value. -/
theorem feeds_promised (hx : Feeds 0 x effect' count') (hy : Straight need y change)
    (hfits : (effect' + change = effect → (need : Int) ≤ effect') ∧ effect ≤ 1 ∧ 0 ≤ effect' ∧
      -(count' + 3 : Int) ≤ change ∧ change ≤ 1) :
    Feeds 0 (promised effect (x >>= fun _ => y)) effect 1 := by
  obtain ⟨hneed, heffect, hzero, hlow, hhigh⟩ := hfits
  have hbounded := hx.bounded
  have hstill : Still y () := by
    intro d b' s' log h
    obtain ⟨log', heq, -, -, hfed⟩ := hy ⟨d, false⟩
    cases heq.symm.trans h
    exact ⟨rfl, rfl, hfed (.inl rfl)⟩
  refine ⟨still_promised (still_bind hx.still hstill), heffect,
    fun d s' log h htransfers hd hroom => ?_⟩
  obtain ⟨h, hpromise⟩ := promised_eq_some.mp h
  obtain ⟨-, hdead, hfed⟩ | ⟨log1, log2, rfl, hfed1, hsize1, -, hfits, hsecond⟩ :=
    hx.split hstill h htransfers hd hroom
  · exact ⟨hfed, fun hlive => absurd hlive hdead⟩
  · obtain ⟨log', heq, hsize2, -, hfed2⟩ := hy ⟨d + effect', true⟩
    cases heq.symm.trans hsecond
    dsimp only at hpromise
    have hend : height (d + effect' + change) = d + effect' + change := height_eq (by omega)
    have hnet : effect' + change = effect := by
      have hkept := hpromise rfl
      rw [hend, height_eq (by omega)] at hkept
      omega
    refine ⟨by simp [hfed1, hfed2 (.inr ⟨by dsimp only; omega, by dsimp only; omega⟩)], fun _ => ?_⟩
    simp only [Log.append_size]
    exact ⟨by omega, by omega⟩

theorem feeds_reach (hx : Feeds need x effect count) : Feeds need (reach x) effect count :=
  ⟨still_reach x, hx.bounded, fun d s' log h => hx.fed d s' log h⟩

theorem feeds_push : Feeds 0 (step 0 1) 1 1 := feeds_step (by omega)

theorem feeds_end : Feeds 1 (step 1 (-1)) (-1) 1 := feeds_step (by omega)

theorem feeds_two : Feeds 2 (step 2 (-1)) (-1) 1 := feeds_step (by omega)

/-- The end of an expression without operands. -/
theorem feeds_leaf : Feeds 0 (promised 1 (step 0 1)) 1 1 :=
  feeds_check feeds_push

end Feeds

/-- A label of which the height is known has that height at every jump. -/
theorem jumpOrPop_known (hknown : 0 ≤ known) (h : jumpOrPop known s = some (known', s', log)) :
    known' = known := by
  rw [jumpOrPop_eq] at h
  split at h
  next => cases h
  next hfits =>
    cases h
    split
    next hlive =>
      by_contra hne
      exact hfits ⟨hlive, hknown, fun heq => hne heq.symm⟩
    next => rfl

theorem place_known (h : place known s = some ((), s', log)) (hknown : 0 ≤ known) :
    s' = ⟨known, true⟩ ∧ log = .empty := by
  obtain ⟨d, live⟩ := s
  cases live with
  | false =>
    rw [place_dead, if_pos hknown] at h
    cases h
    exact ⟨rfl, rfl⟩
  | true =>
    obtain ⟨rfl, rfl, hfits⟩ := place_live h
    have heq : known = d := by omega
    exact ⟨by rw [heq], rfl⟩

theorem place_unknown (h : place known s = some ((), s', log)) (hknown : known < 0) :
    s' = s ∧ log = .empty := by
  obtain ⟨d, live⟩ := s
  cases live with
  | false =>
    rw [place_dead, if_neg (by omega)] at h
    cases h
    exact ⟨rfl, rfl⟩
  | true =>
    obtain ⟨rfl, rfl, -⟩ := place_live h
    exact ⟨rfl, rfl⟩

/-- Where it can be reached, the code goes back one below the pair. -/
theorem transfer_at (hlow : 0 ≤ d) (hhigh : d ≤ 65536) :
    ∃ log, transfer ⟨d, true⟩ = some ((), ⟨d - 1, false⟩, log) ∧ log.transfers = [d - 1] ∧
      log.size = 4 ∧ (1 ≤ d → log.fed = true) := by
  have hstep : ∀ d d' change : Int, 0 ≤ d → d ≤ 65537 → change ≤ 1 → -1 ≤ change →
      d + change = d' → step 1 change ⟨d, true⟩ =
        some ((), ⟨d', true⟩, ⟨1, !true || decide (((1 : Nat) : Int) ≤ d), []⟩) := by
    rintro d d' change hlow hhigh hchange hchange' rfl
    rw [step, height_eq (by dsimp only; omega)]
  have hloop : jumpLoop ⟨d - 1, true⟩ = some ((), ⟨d - 1, false⟩, ⟨1, true, [d - 1]⟩) := by
    rw [jumpLoop, height_eq (by dsimp only; omega), if_pos rfl]
  have hunpack := hstep d (d + 1) 1 hlow (by omega) (by omega) (by omega) rfl
  have hfirst := hstep (d + 1) d (-1) (by omega) (by omega) (by omega) (by omega) (by omega)
  have hsecond := hstep d (d - 1) (-1) hlow (by omega) (by omega) (by omega) rfl
  refine ⟨_, bind_leads hunpack <| bind_leads hfirst <| bind_leads hsecond hloop, rfl, rfl,
    fun hd => ?_⟩
  simp
  omega

end Course

namespace Node

open Course

def Fed (n : Node) : Prop := Feeds 0 n.course n.effect 1

theorem effect_nonneg (n : Node) : 0 ≤ n.effect := by
  rcases n.effect_eq with h | h <;> omega

theorem effect_le_one (n : Node) : n.effect ≤ 1 := by
  rcases n.effect_eq with h | h <;> omega

def effects (ns : List Node) : Int := (ns.map Node.effect).sum

@[simp] theorem effects_nil : effects [] = 0 := rfl

@[simp] theorem effects_cons (n : Node) (ns : List Node) :
    effects (n :: ns) = n.effect + effects ns := by
  simp [effects]

theorem effects_nonneg (ns : List Node) : 0 ≤ effects ns := by
  induction ns with
  | nil => exact Int.le_refl 0
  | cons n rest ih =>
    have := n.effect_nonneg
    rw [effects_cons]
    omega

variable {ns : List Node} {star : Option Node} {keywords : List (Text × Node)} {cleanup : Int}
  {links : List (CompareOp × Node)} {yes no callee : Node} {method : Bool}

theorem effects_eq_length (h : ∀ m ∈ ns, m.effect = 1) : effects ns = ns.length := by
  induction ns with
  | nil => rfl
  | cons n rest ih =>
    rw [forall_mem_cons] at h
    rw [effects_cons, h.1, ih h.2, length_cons]
    omega

theorem feeds_courseAll (h : ∀ m ∈ ns, m.Fed) : Feeds 0 (courseAll ns) (effects ns) ns.length := by
  induction ns with
  | nil =>
    rw [courseAll]
    exact feeds_pure 0
  | cons n rest ih =>
    rw [forall_mem_cons] at h
    rw [courseAll, effects_cons, length_cons, Nat.add_comm]
    have := n.effect_nonneg
    exact feeds_bind (by omega) h.1 (ih h.2)

theorem feeds_courseBound {bound : Option Node} (h : ∀ m ∈ bound.toList, m.Fed) :
    ∃ effect, 0 ≤ effect ∧ effect ≤ 1 ∧ Feeds 0 (courseBound bound) effect 1 := by
  cases bound with
  | none =>
    rw [courseBound]
    exact ⟨1, by omega, by omega, feeds_push⟩
  | some n =>
    rw [courseBound]
    exact ⟨n.effect, n.effect_nonneg, n.effect_le_one, h n (by simp)⟩

theorem feeds_courseStar (h : ∀ m ∈ star.toList, m.Fed) (hvalue : ∀ m ∈ star.toList, m.effect = 1) :
    Feeds 1 (courseStar star) 0 0 := by
  cases star with
  | none =>
    rw [courseStar]
    exact feeds_pure 1
  | some n =>
    have hn := h n (by simp)
    rw [Fed, hvalue n (by simp)] at hn
    rw [courseStar]
    exact (feeds_bind (by omega) (hn.mono (Nat.zero_le 1) (Nat.le_refl 1) (by omega))
      feeds_two).mono
      (Nat.le_refl 1) (Nat.zero_le _) (by omega)

theorem feeds_courseKeywords (h : ∀ m ∈ keywords.map Prod.snd, m.Fed)
    (hvalue : ∀ m ∈ keywords.map Prod.snd, m.effect = 1) :
    Feeds 0 (courseKeywords keywords) (2 * keywords.length) (2 * keywords.length) := by
  induction keywords with
  | nil =>
    rw [courseKeywords]
    exact feeds_pure 0
  | cons keyword rest ih =>
    obtain ⟨name, n⟩ := keyword
    rw [map_cons, forall_mem_cons] at h hvalue
    have hn := h.1
    rw [Fed, hvalue.1] at hn
    have hall := feeds_bind (by omega) feeds_push (feeds_bind (by omega) hn (ih h.2 hvalue.2))
    rw [courseKeywords, length_cons]
    have hlength : (2 * ((rest.length + 1 : Nat) : Int)) = 1 + (1 + 2 * rest.length) := by omega
    have hcount : 2 * (rest.length + 1) = 1 + (1 + 2 * rest.length) := by omega
    rw [hlength, hcount]
    exact hall

/-- Steps drop their values but for the last. -/
theorem feeds_courseSteps (h : ∀ m ∈ ns, m.Fed) (hsome : ns ≠ []) :
    Feeds 0 (courseSteps ns) (lastEffect ns) 1 := by
  induction ns with
  | nil => exact absurd rfl hsome
  | cons n rest ih =>
    rw [forall_mem_cons] at h
    cases rest with
    | nil =>
      rw [courseSteps]
      exact h.1
    | cons m others =>
      have hrest := ih h.2 (cons_ne_nil _ _)
      rw [lastEffect_cons, courseSteps_cons]
      rcases n.effect_eq with heffect | heffect
      · rw [heffect, if_neg (Int.lt_irrefl 0)]
        have hn := h.1
        rw [Fed, heffect] at hn
        have hall := feeds_bind (by omega) hn (feeds_reach hrest)
        rw [Int.zero_add] at hall
        exact hall.mono (Nat.le_refl 0) (by omega) hrest.bounded
      · rw [heffect, if_pos (by omega)]
        have hn := h.1
        rw [Fed, heffect] at hn
        have hall := feeds_bind (by omega) hn (feeds_reach (feeds_bind (by omega) feeds_end hrest))
        rw [show (1 : Int) + (-1 + lastEffect (m :: others)) = lastEffect (m :: others) by omega]
          at hall
        exact hall.mono (Nat.le_refl 0) (by omega) hrest.bounded

/-! ## Chains -/

/-- What is known of the label at which a chain is left does not change. -/
theorem courseOperands_known (hknown : 0 ≤ known)
    (h : courseOperands known ns s = some (known', s', log)) : known' = known := by
  induction ns generalizing known s log with
  | nil =>
    rw [courseOperands] at h
    cases h
    rfl
  | cons n rest ih =>
    cases rest with
    | nil =>
      rw [courseOperands] at h
      obtain ⟨_, _, _, _, -, hend, -⟩ := bind_eq_some.mp h
      cases hend
      rfl
    | cons m others =>
      rw [courseOperands_cons] at h
      obtain ⟨_, _, _, _, -, hrest, -⟩ := bind_eq_some.mp h
      obtain ⟨known1, _, _, _, hjump, hothers, -⟩ := bind_eq_some.mp hrest
      obtain rfl := jumpOrPop_known hknown hjump
      exact ih hknown hothers

theorem still_courseOperands (h : ∀ m ∈ ns, m.Fed) (known : Int) :
    Still (courseOperands known ns) known := by
  induction ns with
  | nil =>
    rw [courseOperands]
    exact still_pure known
  | cons n rest ih =>
    rw [forall_mem_cons] at h
    cases rest with
    | nil =>
      rw [courseOperands]
      exact still_bind h.1.still (still_pure known)
    | cons m others =>
      rw [courseOperands_cons]
      exact still_bind h.1.still (still_bind (still_jumpOrPop known) (ih h.2))

/-- Once one operand has had a value, the others must have one. -/
theorem fed_courseOperands (h : ∀ m ∈ ns, m.Fed)
    (hcourse : courseOperands (d + 1) ns ⟨d, true⟩ = some (known', s', log))
    (htransfers : ∀ t ∈ log.transfers, t = 0) (hd : 0 ≤ d) (hroom : d + log.size ≤ 65535) :
    log.fed = true := by
  induction ns generalizing log with
  | nil =>
    rw [courseOperands] at hcourse
    cases hcourse
    rfl
  | cons n rest ih =>
    rw [forall_mem_cons] at h
    cases rest with
    | nil =>
      rw [courseOperands] at hcourse
      obtain ⟨⟨⟩, _, _, _, hfirst, hend, rfl⟩ := bind_eq_some.mp hcourse
      cases hend
      rw [Log.append_empty] at htransfers hroom ⊢
      exact (h.1.fed d _ _ hfirst htransfers hd hroom).1
    | cons m others =>
      rw [courseOperands_cons] at hcourse
      obtain ⟨-, -, hfed⟩ | ⟨log1, log2, rfl, hfed1, hsize, hnone, hfits, hrest⟩ := h.1.split
        (still_bind (still_jumpOrPop _) (still_courseOperands h.2 _)) hcourse htransfers hd hroom
      · exact hfed
      · obtain ⟨known1, s2, log3, log4, hjump, hothers, rfl⟩ := bind_eq_some.mp hrest
        simp only [Log.append_transfers, forall_mem_append] at hnone
        simp only [Log.append_size, Int.natCast_add] at hfits
        rw [jumpOrPop_eq] at hjump
        dsimp only at hjump
        split at hjump
        next => cases hjump
        next hmeets =>
          have hvalue : n.effect = 1 := by
            by_contra hne
            exact hmeets ⟨rfl, by omega, by omega⟩
          cases hjump
          rw [if_pos rfl, hvalue, Int.add_sub_cancel, height_eq (by omega)] at hothers
          have hfed := ih h.2 hothers hnone.2 (by omega)
          rw [Log.append_fed, Log.append_fed, hfed1, hfed]
          simp [hvalue]
          omega

theorem feeds_logical {operands : List Node} (h : ∀ m ∈ operands, m.Fed) :
    Feeds 0 (promised 1 (do place (← courseOperands (-1) operands))) 1 1 := by
  have hstill : Still (do place (← courseOperands (-1) operands)) () :=
    still_bind (still_courseOperands h (-1)) (still_place (by omega))
  refine ⟨still_promised hstill, by omega, fun d s' log hcourse htransfers hd hroom => ?_⟩
  obtain ⟨hcourse, hpromise⟩ := promised_eq_some.mp hcourse
  obtain ⟨known, s1, log1, log2, hoperands, hplace, rfl⟩ := bind_eq_some.mp hcourse
  simp only [Log.append_transfers, forall_mem_append] at htransfers
  simp only [Log.append_size, Int.natCast_add] at hroom
  match operands, h with
  | [], _ =>
    rw [courseOperands] at hoperands
    cases hoperands
    obtain ⟨rfl, rfl⟩ := place_unknown hplace (by omega)
    have hnet := hpromise rfl
    rw [Int.sub_self] at hnet
    cases hnet
  | [n], h =>
    rw [courseOperands] at hoperands
    obtain ⟨⟨⟩, s2, log3, log4, hn, hend, rfl⟩ := bind_eq_some.mp hoperands
    cases hend
    obtain ⟨rfl, rfl⟩ := place_unknown hplace (by omega)
    rw [Log.append_empty, Log.append_empty] at *
    obtain ⟨hfed, hend⟩ := (h n (by simp)).fed d _ log3 hn htransfers.1 hd (by omega)
    refine ⟨hfed, fun hlive => ?_⟩
    obtain ⟨hdepth, hsize⟩ := hend hlive
    have hnet := hpromise hlive
    have := n.effect_nonneg
    have := n.effect_le_one
    rw [hdepth, height_eq (by dsimp only; omega)] at hnet
    dsimp only at hnet
    exact ⟨by omega, hsize⟩
  | n :: m :: rest, h =>
    rw [forall_mem_cons] at h
    rw [courseOperands_cons] at hoperands
    obtain ⟨rfl, hdead, hfed⟩ | ⟨log3, log4, rfl, hfed1, hsize, hnone, -, hothers⟩ := h.1.split
      (still_bind (still_jumpOrPop _) (still_courseOperands h.2 _))
        hoperands htransfers.1 hd (by omega)
    · obtain ⟨rfl, rfl⟩ := place_unknown hplace (by omega)
      exact ⟨by simp [hfed], fun hlive => absurd hlive hdead⟩
    · have := n.effect_nonneg
      have := n.effect_le_one
      obtain ⟨known1, s2, log5, log6, hjump, hrest, rfl⟩ := bind_eq_some.mp hothers
      rw [jumpOrPop_eq, if_neg fun hfits => by omega] at hjump
      cases hjump
      rw [if_pos rfl] at hrest
      -- The end is reached at the height of the first jump, so the first operand has a value.
      obtain rfl := courseOperands_known (by dsimp only; omega) hrest
      obtain ⟨rfl, rfl⟩ := place_known hplace (by dsimp only; omega)
      have hnet := hpromise rfl
      dsimp only at hnet
      rw [height_eq (by omega)] at hnet
      have hvalue : n.effect = 1 := by omega
      rw [hvalue] at hrest
      dsimp only at hrest
      rw [Int.add_sub_cancel, height_eq (by omega)] at hrest
      simp only [Log.append_transfers, forall_mem_append] at hnone
      simp only [Log.append_size, Int.natCast_add] at hroom
      have hfed2 := fed_courseOperands h.2 hrest hnone.2 hd (by omega)
      refine ⟨?_, fun _ => ⟨by dsimp only; omega, by simp only [Log.append_size]; omega⟩⟩
      simp [hfed1, hfed2]
      omega

/-- The code between two operands of a chain of comparisons. -/
def turn (known : Int) : Course Int := do
  step 1 1
  step 3 0
  step 2 (-1)
  jumpOrPop known

theorem still_turn (known : Int) : Still (turn known) known :=
  still_bind (still_step _ _) <| still_bind (still_step _ _) <| still_bind (still_step _ _) <|
    still_jumpOrPop known

theorem turn_at (hlow : 0 ≤ d) (hhigh : d ≤ 65536)
    (h : turn known ⟨d, true⟩ = some (known', s', log)) :
    known' = d ∧ s' = ⟨d - 1, true⟩ ∧ (known < 0 ∨ known = d) ∧ log.size = 4 ∧
      log.transfers = [] ∧ (2 ≤ d → log.fed = true) := by
  obtain ⟨_, _, _, _, hdup, h1, rfl⟩ := bind_eq_some.mp h
  cases hdup
  obtain ⟨_, _, _, _, hrot, h2, rfl⟩ := bind_eq_some.mp h1
  cases hrot
  obtain ⟨_, _, _, _, hcompare, h3, rfl⟩ := bind_eq_some.mp h2
  cases hcompare
  dsimp only at h3
  have hup : height (d + 1) = d + 1 := height_eq (by omega)
  have hdown : height (d + 1 + -1) = d := by
    rw [height_eq (by omega)]
    omega
  rw [hup, Int.add_zero, hup, hdown, jumpOrPop_eq] at h3
  dsimp only at h3
  split at h3
  next => cases h3
  next hfits =>
    cases h3
    have hknown : known < 0 ∨ known = d := by
      by_cases hknown : known < 0
      · exact .inl hknown
      · by_cases heq : known = d
        · exact .inr heq
        · exact absurd ⟨rfl, by omega, heq⟩ hfits
    refine ⟨rfl, ?_, hknown, rfl, rfl, fun hd => ?_⟩
    · rw [height_eq (by omega)]
    · simp only [Log.append_fed, Bool.not_true, Bool.false_or, hup, Int.add_zero, Bool.and_eq_true,
        decide_eq_true_eq]
      omega

theorem courseLinks_turn (known : Int) (op : CompareOp) (n : Node) (link : CompareOp × Node)
    (rest : List (CompareOp × Node)) :
    courseLinks known ((op, n) :: link :: rest) = (do
      n.course
      courseLinks (← turn known) (link :: rest)) := by
  rw [courseLinks_cons]
  simp only [turn, bind_assoc]

theorem courseLinks_known (hknown : 0 ≤ known)
    (h : courseLinks known links s = some (known', s', log)) : known' = known := by
  induction links generalizing known s log with
  | nil =>
    rw [courseLinks] at h
    cases h
    rfl
  | cons link rest ih =>
    obtain ⟨op, n⟩ := link
    cases rest with
    | nil =>
      rw [courseLinks] at h
      obtain ⟨_, _, _, _, -, hcompare, -⟩ := bind_eq_some.mp h
      obtain ⟨_, _, _, _, -, hend, -⟩ := bind_eq_some.mp hcompare
      cases hend
      rfl
    | cons second others =>
      rw [courseLinks_cons] at h
      obtain ⟨_, _, _, _, -, hdup, -⟩ := bind_eq_some.mp h
      obtain ⟨_, _, _, _, -, hrot, -⟩ := bind_eq_some.mp hdup
      obtain ⟨_, _, _, _, -, hcompare, -⟩ := bind_eq_some.mp hrot
      obtain ⟨_, _, _, _, -, hrest, -⟩ := bind_eq_some.mp hcompare
      obtain ⟨known1, _, _, _, hjump, hothers, -⟩ := bind_eq_some.mp hrest
      obtain rfl := jumpOrPop_known hknown hjump
      exact ih hknown hothers

theorem still_courseLinks (h : ∀ m ∈ links.map Prod.snd, m.Fed) (known : Int) :
    Still (courseLinks known links) known := by
  induction links with
  | nil =>
    rw [courseLinks]
    exact still_pure known
  | cons link rest ih =>
    obtain ⟨op, n⟩ := link
    rw [map_cons, forall_mem_cons] at h
    cases rest with
    | nil =>
      rw [courseLinks]
      exact still_bind h.1.still (still_bind (still_step _ _) (still_pure known))
    | cons second others =>
      rw [courseLinks_turn]
      exact still_bind h.1.still (still_bind (still_turn known) (ih h.2))

/-- Once two operands have been compared, the others must have a value. Only the last may lack one:
then the chain ends lower than where it is left. -/
theorem fed_courseLinks (h : ∀ m ∈ links.map Prod.snd, m.Fed) (hsome : links ≠ [])
    (hcourse : courseLinks (d + 2) links ⟨d + 1, true⟩ = some (known', s', log))
    (htransfers : ∀ t ∈ log.transfers, t = 0) (hd : 0 ≤ d) (hroom : d + 1 + log.size ≤ 65535) :
    (s'.reachable = true → 0 ≤ s'.depth) ∧
      (s'.reachable = true ∧ s'.depth = d ∨ log.fed = true) := by
  induction links generalizing log with
  | nil => exact absurd rfl hsome
  | cons link rest ih =>
    obtain ⟨op, n⟩ := link
    rw [map_cons, forall_mem_cons] at h
    dsimp only at h
    have := n.effect_nonneg
    have := n.effect_le_one
    cases rest with
    | nil =>
      rw [courseLinks] at hcourse
      obtain ⟨-, hdead, hfed⟩ | ⟨log1, log2, rfl, hfed1, -, -, hfits, hrest⟩ := h.1.split
        (still_bind (still_step 2 (-1)) (still_pure (d + 2))) hcourse htransfers (by omega) hroom
      · exact ⟨fun hlive => absurd hlive hdead, .inr hfed⟩
      · obtain ⟨_, _, _, _, hstep, hend, rfl⟩ := bind_eq_some.mp hrest
        cases hstep
        cases hend
        rw [height_eq (by dsimp only; omega)]
        refine ⟨fun _ => by dsimp only; omega, ?_⟩
        rcases n.effect_eq with hvalue | hvalue
        · exact .inl ⟨rfl, by dsimp only; omega⟩
        · right
          simp [hfed1, hvalue]
          omega
    | cons second others =>
      rw [courseLinks_turn] at hcourse
      obtain ⟨-, hdead, hfed⟩ | ⟨log1, log2, rfl, hfed1, -, hnone, hfits, hrest⟩ := h.1.split
        (still_bind (still_turn _) (still_courseLinks h.2 _)) hcourse htransfers (by omega) hroom
      · exact ⟨fun hlive => absurd hlive hdead, .inr hfed⟩
      · obtain ⟨known1, s2, log3, log4, hturn, hothers, rfl⟩ := bind_eq_some.mp hrest
        simp only [Log.append_transfers, forall_mem_append] at hnone
        simp only [Log.append_size, Int.natCast_add] at hfits
        obtain ⟨rfl, rfl, hknown, hsize, -, hfed3⟩ := turn_at (by omega) (by omega) hturn
        have hvalue : n.effect = 1 := by omega
        have htwo : d + 1 + n.effect = d + 2 := by omega
        rw [htwo, show d + 2 - 1 = d + 1 by omega] at hothers
        obtain ⟨hlow, hend⟩ := ih h.2 (cons_ne_nil _ _) hothers hnone.2 (by omega)
        refine ⟨hlow, hend.imp_right fun hfed4 => ?_⟩
        simp [hfed1, hfed3 (by omega), hfed4]

/-- The code behind the last comparison of a chain. -/
def chainEnd (cleanup : Int) : Course Unit := do
  let done ← jump (-1)
  place cleanup
  step 2 0
  step 1 (-1)
  place done

theorem still_chainEnd (h : cleanup < 0) : Still (chainEnd cleanup) () :=
  still_bind (still_jump (-1)) <| still_bind (still_place h) <| still_bind (still_step _ _) <|
    still_bind (still_step _ _) <| still_place (by omega)

/-- A chain that is left somewhere ends one below the height at which it is left. -/
theorem chainEnd_at (h : chainEnd cleanup s = some ((), s', log)) (hlow : 0 ≤ cleanup)
    (hhigh : cleanup ≤ 65536) :
    s' = ⟨cleanup - 1, true⟩ ∧ (s.reachable = true → 0 ≤ s.depth → s.depth = cleanup - 1) ∧
      (2 ≤ cleanup → (s.reachable = true → 0 ≤ s.depth) → log.fed = true) := by
  obtain ⟨done, _, _, _, hjump, h1, rfl⟩ := bind_eq_some.mp h
  rw [jump_eq, if_neg fun hfits => by omega] at hjump
  cases hjump
  obtain ⟨⟨⟩, _, _, _, hplace, h2, rfl⟩ := bind_eq_some.mp h1
  obtain ⟨rfl, rfl⟩ := place_known hplace hlow
  obtain ⟨_, _, _, _, hrot, h3, rfl⟩ := bind_eq_some.mp h2
  cases hrot
  obtain ⟨⟨⟩, _, _, _, hpop, h4, rfl⟩ := bind_eq_some.mp h3
  cases hpop
  have hsame : height (cleanup + 0) = cleanup := by
    rw [Int.add_zero, height_eq (by omega)]
  have hbelow : height (cleanup + -1) = cleanup - 1 := height_eq (by omega)
  dsimp only at h4
  rw [hsame, hbelow] at h4
  obtain ⟨rfl, rfl, hfits⟩ := place_live h4
  refine ⟨rfl, fun hlive hdepth => ?_, fun htwo hs => ?_⟩
  · rw [if_pos hlive] at hfits
    omega
  · have hjump : (!s.reachable || decide (0 ≤ s.depth)) = true := by
      cases hlive : s.reachable with
      | false => rfl
      | true => simpa using hs hlive
    simp only [Log.append_fed, hjump, hsame]
    simp
    omega

/-- A chain that is left nowhere ends where its last comparison does. -/
theorem chainEnd_unknown (h : chainEnd (-1) ⟨d, true⟩ = some ((), s', log)) (hd : 0 ≤ d) :
    s' = ⟨d, true⟩ ∧ log.fed = true := by
  obtain ⟨done, _, _, _, hjump, h1, rfl⟩ := bind_eq_some.mp h
  rw [jump_eq, if_neg fun hfits => by omega] at hjump
  cases hjump
  obtain ⟨⟨⟩, _, _, _, hplace, h2, rfl⟩ := bind_eq_some.mp h1
  obtain ⟨rfl, rfl⟩ := place_unknown hplace (by omega)
  obtain ⟨_, _, _, _, hrot, h3, rfl⟩ := bind_eq_some.mp h2
  cases hrot
  obtain ⟨_, _, _, _, hpop, h4, rfl⟩ := bind_eq_some.mp h3
  cases hpop
  rw [if_pos rfl] at h4
  obtain ⟨rfl, rfl⟩ := place_known h4 hd
  exact ⟨rfl, by simp [hd]⟩

theorem ownCourse_chain (subject : Node) (h : links.length ≠ 1) :
    (Node.compare subject links).ownCourse = (do
      subject.course
      chainEnd (← courseLinks (-1) links)) :=
  ownCourse_compare_chain subject h

theorem feeds_chain {subject : Node} (hsubject : subject.Fed) (h : ∀ m ∈ links.map Prod.snd, m.Fed)
    (hchain : links.length ≠ 1) : (Node.compare subject links).Fed := by
  have hstill : Still (do chainEnd (← courseLinks (-1) links)) () :=
    still_bind (still_courseLinks h (-1)) (still_chainEnd (by omega))
  rw [Fed, course, ownCourse_chain subject hchain]
  change Feeds 0 (promised 1 _) 1 1
  refine ⟨still_promised (still_bind hsubject.still hstill), by omega,
    fun d s' log hcourse htransfers hd hroom => ?_⟩
  obtain ⟨hcourse, hpromise⟩ := promised_eq_some.mp hcourse
  have := subject.effect_nonneg
  have := subject.effect_le_one
  obtain ⟨-, hdead, hfed⟩ | ⟨log1, log2, rfl, hfed1, hsize1, hnone, hfits, hrest⟩ :=
    hsubject.split hstill hcourse htransfers hd hroom
  · exact ⟨hfed, fun hlive => absurd hlive hdead⟩
  · obtain ⟨cleanup, s2, log3, log4, hlinks, htail, rfl⟩ := bind_eq_some.mp hrest
    simp only [Log.append_transfers, forall_mem_append] at hnone
    simp only [Log.append_size, Int.natCast_add] at hfits
    rcases links with _ | ⟨⟨op, n⟩, _ | ⟨second, others⟩⟩
    · rw [courseLinks] at hlinks
      cases hlinks
      obtain ⟨rfl, hfed2⟩ := chainEnd_unknown htail (by omega)
      have hnet := hpromise rfl
      dsimp only at hnet
      rw [height_eq (by omega)] at hnet
      exact ⟨by simp [hfed1, hfed2],
        fun _ => ⟨by dsimp only; omega, by simp only [Log.append_size]; omega⟩⟩
    · exact absurd rfl hchain
    · rw [map_cons, forall_mem_cons] at h
      dsimp only at h
      rw [courseLinks_turn] at hlinks
      have := n.effect_nonneg
      have := n.effect_le_one
      obtain ⟨rfl, hdead, hfed⟩ | ⟨log5, log6, rfl, hfed2, -, hnone, hfits', hothers⟩ := h.1.split
        (still_bind (still_turn _) (still_courseLinks h.2 _)) hlinks hnone.1 (by omega) (by omega)
      · obtain ⟨d3, live⟩ := s2
        obtain rfl := Bool.eq_false_of_not_eq_true hdead
        obtain ⟨-, hdead', hfed4⟩ := still_chainEnd (by omega) _ _ _ _ htail
        exact ⟨by simp [hfed1, hfed, hfed4], fun hlive => absurd hlive (by simp [hdead'])⟩
      · obtain ⟨known, s3, log7, log8, hturn, hlast, rfl⟩ := bind_eq_some.mp hothers
        simp only [Log.append_transfers, forall_mem_append] at hnone
        simp only [Log.append_size, Int.natCast_add] at hfits hfits'
        obtain ⟨rfl, rfl, -, hsize7, -, hfed7⟩ := turn_at (by omega) (by omega) hturn
        obtain rfl := courseLinks_known (by omega) hlast
        obtain ⟨rfl, hmeets, hfed4⟩ := chainEnd_at htail (by omega) (by omega)
        -- The end is reached from where the chain is left first, so both values are there.
        have hnet := hpromise rfl
        dsimp only at hnet
        rw [height_eq (by omega)] at hnet
        have htwo : d + subject.effect + n.effect = d + 2 := by omega
        rw [htwo, show d + 2 - 1 = d + 1 by omega] at hlast
        rw [htwo] at hmeets hfed4 hfed7
        obtain ⟨hlow, hfed8⟩ := fed_courseLinks h.2 (cons_ne_nil _ _) hlast
          hnone.2 hd (by omega)
        have hfed8 : log8.fed = true := by
          rcases hfed8 with ⟨hlive, hdepth⟩ | hfed8
          · have := hmeets hlive (hlow hlive)
            omega
          · exact hfed8
        refine ⟨by simp [hfed1, hfed2, hfed7 (by omega), hfed8, hfed4 (by omega) hlow],
          fun _ => ⟨by dsimp only; omega, by simp only [Log.append_size]; omega⟩⟩

/-! ## Branches and transfers -/

/-- The code of two branches. -/
def forks (yes no : Node) (otherwise : Int) : Course Unit := do
  yes.course
  let done ← jump (-1)
  place otherwise
  no.course
  place done

theorem still_forks (hyes : yes.Fed) (hno : no.Fed) {otherwise : Int} (h : otherwise < 0) :
    Still (forks yes no otherwise) () :=
  still_bind hyes.still <| still_bind (still_jump (-1)) <| still_bind (still_place h) <|
    still_bind hno.still <| still_place (by omega)

theorem forks_at (hyes : yes.Fed) (hno : no.Fed) (h : forks yes no d ⟨d, true⟩ = some ((), s', log))
    (htransfers : ∀ t ∈ log.transfers, t = 0) (hd : 0 ≤ d) (hroom : d + log.size ≤ 65535) :
    log.fed = true ∧ (s'.reachable = true → d ≤ s'.depth ∧ s'.depth ≤ d + 1) := by
  have := yes.effect_nonneg
  have := yes.effect_le_one
  have := no.effect_nonneg
  have := no.effect_le_one
  obtain ⟨⟨⟩, ⟨d1, live1⟩, log1, _, hfirst, h1, rfl⟩ := bind_eq_some.mp h
  obtain ⟨done, _, _, _, hjump, h2, rfl⟩ := bind_eq_some.mp h1
  rw [jump_eq, if_neg fun hfits => by omega] at hjump
  cases hjump
  obtain ⟨⟨⟩, _, _, _, hplace, h3, rfl⟩ := bind_eq_some.mp h2
  obtain ⟨rfl, rfl⟩ := place_known hplace hd
  obtain ⟨⟨⟩, ⟨d2, live2⟩, log2, _, hsecond, h4, rfl⟩ := bind_eq_some.mp h3
  simp only [Log.append_transfers, forall_mem_append] at htransfers
  simp only [Log.append_size, Int.natCast_add] at hroom
  obtain ⟨hfed1, hend1⟩ := hyes.fed d _ log1 hfirst htransfers.1 hd (by omega)
  obtain ⟨hfed2, hend2⟩ := hno.fed d _ log2 hsecond htransfers.2.2.2.1 hd (by omega)
  -- The end of the first branch is as high as its label, and so is that of the second.
  have hjump : (!live1 || decide (0 ≤ d1)) = true := by
    cases live1 with
    | false => rfl
    | true =>
      have hdepth := (hend1 rfl).1
      dsimp only at hdepth
      simp
      omega
  by_cases hdone : 0 ≤ if live1 = true then d1 else -1
  · obtain ⟨rfl, rfl⟩ := place_known h4 hdone
    refine ⟨by simp [hfed1, hfed2, hjump], fun _ => ?_⟩
    cases live1 with
    | false => cases hdone
    | true =>
      have hdepth := (hend1 rfl).1
      dsimp only at hdepth
      dsimp only
      rw [if_pos rfl]
      omega
  · obtain ⟨rfl, rfl⟩ := place_unknown h4 (Int.not_le.mp hdone)
    refine ⟨by simp [hfed1, hfed2, hjump], fun hlive => ?_⟩
    have hdepth := (hend2 hlive).1
    omega

theorem feeds_cond {test : Node} (htest : test.Fed) (hvalue : test.effect = 1) (hyes : yes.Fed)
    (hno : no.Fed) : (Node.cond test yes no).Fed := by
  have hcourse : (Node.cond test yes no).ownCourse = (do
      test.course
      forks yes no (← popJump (-1))) := by
    rw [ownCourse]
    rfl
  have hforks : Still (do forks yes no (← popJump (-1))) () :=
    still_bind (still_popJump (-1)) (still_forks hyes hno (by omega))
  rw [Fed, course, hcourse]
  change Feeds 0 (promised 1 _) 1 1
  refine ⟨still_promised (still_bind htest.still hforks), by omega,
    fun d s' log h htransfers hd hroom => ?_⟩
  obtain ⟨h, hpromise⟩ := promised_eq_some.mp h
  obtain ⟨-, hdead, hfed⟩ | ⟨log1, log2, rfl, hfed1, hsize1, hnone, hfits, hrest⟩ :=
    htest.split hforks h htransfers hd hroom
  · exact ⟨hfed, fun hlive => absurd hlive hdead⟩
  · rw [hvalue] at hrest
    obtain ⟨otherwise, _, _, log3, hjump, hboth, rfl⟩ := bind_eq_some.mp hrest
    rw [popJump_eq, if_neg fun hmeets => by omega] at hjump
    cases hjump
    dsimp only at hboth
    rw [if_pos rfl, Int.add_sub_cancel, height_eq (by omega)] at hboth
    simp only [Log.append_transfers, forall_mem_append] at hnone
    simp only [Log.append_size, Int.natCast_add] at hfits
    obtain ⟨hfed2, hend⟩ := forks_at hyes hno hboth hnone.2 hd (by omega)
    refine ⟨?_, fun hlive => ?_⟩
    · simp [hfed1, hfed2]
      omega
    · have hnet := hpromise hlive
      have hbetween := hend hlive
      dsimp only at hnet
      rw [height_eq (by omega)] at hnet
      exact ⟨by omega, by simp only [Log.append_size]; omega⟩

/-- Code goes back to the top of the loop with an empty stack, so there is a pair before. -/
theorem feeds_next {pair : Node} (h : pair.Fed) : (Node.next pair).Fed := by
  have := pair.effect_nonneg
  have := pair.effect_le_one
  rw [Fed, course, ownCourse]
  change Feeds 0 (promised 1 (pair.course >>= fun _ => transfer)) 1 1
  refine ⟨still_promised (still_bind h.still still_transfer), by omega,
    fun d s' log hcourse htransfers hd hroom => ?_⟩
  obtain ⟨hcourse, -⟩ := promised_eq_some.mp hcourse
  obtain ⟨-, hdead, hfed⟩ | ⟨log1, log2, rfl, hfed1, -, hnone, hfits, hrest⟩ :=
    h.split still_transfer hcourse htransfers hd hroom
  · exact ⟨hfed, fun hlive => absurd hlive hdead⟩
  · have hlow : 0 ≤ d + pair.effect := by omega
    obtain ⟨log2, htransfer, hheights, -, hfed2⟩ := transfer_at hlow (by omega)
    cases htransfer.symm.trans hrest
    have hempty := hnone _ (by rw [hheights]; exact mem_singleton_self _)
    exact ⟨by simp [hfed1, hfed2 (by omega)], fun hlive => absurd hlive Bool.false_ne_true⟩

/-! ## Calls -/

/-- The receiver of the call of a method. -/
def receivers (callee : Node) (method : Bool) : List Node :=
  match callee, method with
  | .attr base _, true => [base]
  | _, _ => []

/-- The operands whose values code pops before it comes to the end of the expression. -/
def pledged : Node → List Node
  | .cond test _ _ => [test]
  | .call callee args star keywords doubleStar method =>
    receivers callee method ++
      if star.isNone && doubleStar.isNone && keywords.isEmpty then []
      else (Node.call callee args star keywords doubleStar method).children
  | _ => []

/-- What is popped on the way is a value. -/
def Ready (n : Node) : Prop := ∀ m ∈ n.pledged, m.effect = 1

instance : DecidablePred Ready :=
  fun n => inferInstanceAs (Decidable (∀ m ∈ n.pledged, m.effect = 1))

/-- How many values the callee of a call leaves. -/
def calleeSize (withReceiver : Bool) : Nat := if withReceiver then 2 else 1

theorem feeds_courseCallee (h : callee.Fed) (hbelow : ∀ m ∈ callee.children, m.Fed)
    (hreceiver : ∀ base name, callee = .attr base name → method = true → base.effect = 1) :
    ∃ (x : Course Unit) (withReceiver : Bool) (effect : Int), 0 ≤ effect ∧
      courseCallee callee method = (do x; pure withReceiver) ∧
      Feeds 0 x effect (calleeSize withReceiver) ∧
      (callee.effect = 1 → effect = calleeSize withReceiver) := by
  unfold courseCallee
  split
  next base name =>
    have hbase := hbelow base (by simp)
    rw [Fed, hreceiver base name rfl rfl] at hbase
    have hmethod : Feeds 1 (step 1 1) 1 1 := feeds_step (by omega)
    refine ⟨do base.course; step 1 1, true, 1 + 1, by omega, ?_,
      feeds_bind (by omega) hbase hmethod,
      fun _ => rfl⟩
    rw [Course.bind_assoc]
  next => exact ⟨callee.course, false, callee.effect, callee.effect_nonneg, rfl, h, fun h => h⟩

theorem feeds_call {args : List Node} {doubleStar : Option Node}
    (h : ∀ m ∈ (Node.call callee args star keywords doubleStar method).children, m.Fed)
    (hbelow : ∀ m ∈ callee.children, m.Fed)
    (hready : (Node.call callee args star keywords doubleStar method).Ready) :
    (Node.call callee args star keywords doubleStar method).Fed := by
  have hreceiver : ∀ base name, callee = .attr base name → method = true → base.effect = 1 := by
    rintro base name rfl rfl
    exact hready base (by simp [pledged, receivers])
  have hargs : ∀ m ∈ args, m.Fed := fun m hm => h m (by simp [hm])
  have hstar : ∀ m ∈ star.toList, m.Fed := fun m hm => h m (by simp_all [children])
  have hkeywords : ∀ m ∈ keywords.map Prod.snd, m.Fed := fun m hm => h m (by simp_all [children])
  have hdouble : ∀ m ∈ doubleStar.toList, m.Fed := fun m hm => h m (by simp_all [children])
  obtain ⟨x, withReceiver, effect, hnonneg, hcallee, hx, hone⟩ :=
    feeds_courseCallee (h callee (by simp)) hbelow hreceiver
  have heffects := effects_nonneg args
  rw [Fed, course, ownCourse_call, hcallee, bind_assoc]
  simp only [Course.pure_bind]
  change Feeds 0 (promised 1 _) 1 1
  by_cases hplain : (star.isNone && doubleStar.isNone && keywords.isEmpty) = true
  · have hoperands := feeds_bind (by omega) hx (feeds_courseAll hargs)
    rw [if_pos hplain]
    cases withReceiver with
    | true =>
      rw [if_pos rfl, ← Course.bind_assoc]
      exact feeds_promised hoperands (straight_step _ _) (by omega)
    | false =>
      rw [if_neg Bool.false_ne_true, ← Course.bind_assoc]
      exact feeds_promised hoperands (straight_step _ _) (by omega)
  · have hvalue : ∀ m ∈ (Node.call callee args star keywords doubleStar method).children,
        m.effect = 1 := by
      intro m hm
      refine hready m ?_
      rw [pledged, if_neg hplain]
      exact mem_append_right _ hm
    have hlast : Feeds (calleeSize withReceiver + 2)
        (if withReceiver = true then step 4 (-3) else step 3 (-2))
          (-calleeSize withReceiver - 1) 1 := by
      have hmethod : Feeds 4 (step 4 (-3)) (-3) 1 := feeds_step (by omega)
      have hfunction : Feeds 3 (step 3 (-2)) (-2) 1 := feeds_step (by omega)
      cases withReceiver with
      | true => exact hmethod
      | false => exact hfunction
    have hall := feeds_courseAll hargs
    rw [effects_eq_length fun m hm => hvalue m (by simp [hm])] at hall
    rw [hone (hvalue callee (by simp))] at hx
    rw [if_neg hplain]
    generalize calleeSize withReceiver = size at hx hlast
    -- The callee stays below the list and the dictionary to the end.
    have hdouble' := (feeds_courseStar hdouble fun m hm => hvalue m (by simp_all [children])).mono
      (show 1 ≤ size + 2 by omega) (Nat.le_refl 0) (by omega)
    have hdict : Feeds (2 * keywords.length + (size + 1)) (step (2 * keywords.length)
        (1 - 2 * keywords.length)) (1 - 2 * keywords.length) 1 :=
      (feeds_step (by omega)).mono (by omega) (Nat.le_refl 1) (by omega)
    have hkeywords' := (feeds_courseKeywords hkeywords fun m hm =>
      hvalue m (by simp_all [children])).mono (Nat.zero_le (size + 1)) (Nat.le_refl _) (by omega)
    have hstar' := (feeds_courseStar hstar fun m hm => hvalue m (by simp_all [children])).mono
      (show 1 ≤ size + 1 by omega) (Nat.le_refl 0) (by omega)
    have hlist : Feeds (args.length + size) (step args.length (1 - args.length))
        (1 - args.length) 1 :=
      (feeds_step (by omega)).mono (by omega) (Nat.le_refl 1) (by omega)
    have hall' := hall.mono (Nat.zero_le size) (Nat.le_refl _) (by omega)
    have hchain := feeds_bind (by omega) hx (feeds_bind (by omega) hall'
      (feeds_bind (by omega) hlist
      (feeds_bind (by omega) hstar' (feeds_bind (by omega) hkeywords' (feeds_bind (by omega) hdict
      (feeds_bind (by omega) hdouble' hlast))))))
    have hsum : (size : Int) + (args.length + (1 - args.length + (0 + (2 * keywords.length +
        (1 - 2 * keywords.length + (0 + (-size - 1))))))) = 1 := by omega
    rw [hsum] at hchain
    exact feeds_check (hchain.mono (Nat.le_refl 0) (by omega) (by omega))

/-! ## All expressions -/

theorem feeds_single {operand : Node} (h : operand.Fed) :
    Feeds 0 (promised 1 (do operand.course; step 1 0)) 1 1 := by
  have := operand.effect_nonneg
  exact feeds_promised h (straight_step _ _) (by omega)

theorem feeds_pair {left right : Node} (hleft : left.Fed) (hright : right.Fed) :
    Feeds 0 (promised 1 (do left.course; right.course; step 2 (-1))) 1 1 := by
  have := left.effect_nonneg
  have := right.effect_nonneg
  have hoperands := feeds_bind (by omega) hleft hright
  rw [← Course.bind_assoc]
  exact feeds_promised hoperands (straight_step _ _) (by omega)

/-- The end of a slice: the three bounds become one value, and then that is looked up. -/
theorem straight_slice : Straight 4 (do step 3 (-2); step 2 (-1)) (-3) := by
  intro s
  have hsecond : step 2 (-1) ⟨height (s.depth + -2), s.reachable⟩ = some ((),
      ⟨height (s.depth + -3), s.reachable⟩,
      ⟨1, !s.reachable || decide (((2 : Nat) : Int) ≤ height (s.depth + -2)), []⟩) := by
    rw [step]
    dsimp only
    rw [height, height, Int.bmod_add_bmod, Int.add_assoc]
    rfl
  refine ⟨_, bind_leads rfl hsecond, by simp, rfl, fun h => ?_⟩
  rcases h with hdead | ⟨hlow, hhigh⟩
  · simp [hdead]
  · rw [height_eq (by omega)]
    simp
    omega

/-- The code of an expression finds its operands if what it pops on the way is there. -/
theorem fed {n : Node} (h : n.Everywhere Ready) : n.Fed := by
  induction n using descent with
  | h n ih ihBelow =>
  obtain ⟨hready, hparts⟩ := everywhere_iff.mp h
  replace ih : ∀ m ∈ n.children, m.Fed := fun m hm => ih m hm (hparts m hm)
  replace ihBelow : ∀ m ∈ n.children, ∀ k ∈ m.children, k.Fed := fun m hm k hk =>
    ihBelow m hm k hk ((everywhere_iff.mp (hparts m hm)).2 k hk)
  cases n with
  | const v signature => exact feeds_leaf
  | var name => exact feeds_leaf
  | unary op operand =>
    rw [Fed, course, ownCourse]
    exact feeds_single (ih operand (by simp))
  | binary op left right =>
    rw [Fed, course, ownCourse]
    exact feeds_pair (ih left (by simp)) (ih right (by simp))
  | compare subject links =>
    have hlinks : ∀ m ∈ links.map Prod.snd, m.Fed := fun m hm => ih m (mem_cons_of_mem _ hm)
    by_cases hsingle : links.length = 1
    · obtain ⟨⟨op, n⟩, rfl⟩ := length_eq_one_iff.mp hsingle
      rw [Fed, course, ownCourse]
      exact feeds_pair (ih subject (by simp)) (hlinks n (by simp))
    · exact feeds_chain (ih subject (by simp)) hlinks hsingle
  | logical junction operands =>
    rw [Fed, course, ownCourse]
    exact feeds_logical ih
  | cond test yes no =>
    exact feeds_cond (ih test (by simp)) (hready test (by simp [pledged]))
      (ih yes (by simp)) (ih no (by simp))
  | collection kind elements =>
    have hoperands : Feeds 0 (courseAll elements) (effects elements) elements.length :=
      feeds_courseAll ih
    have := effects_nonneg elements
    cases kind with
    | list | tuple =>
      rw [Fed, course, ownCourse]
      exact feeds_promised hoperands (straight_step _ _) (by simp only [effect]; omega)
    | dict =>
      rw [Fed, course, ownCourse]
      exact feeds_promised hoperands (straight_step _ _) (by simp only [effect]; omega)
  | subscript base index =>
    rw [Fed, course, ownCourse]
    exact feeds_pair (ih base (by simp)) (ih index (by simp))
  | sliceObj start stop step =>
    simp only [children, present_cons, present_nil, append_nil, forall_mem_append] at ih
    obtain ⟨e1, hlow1, hhigh1, h1⟩ := feeds_courseBound ih.1
    obtain ⟨e2, hlow2, hhigh2, h2⟩ := feeds_courseBound ih.2.1
    obtain ⟨e3, hlow3, hhigh3, h3⟩ := feeds_courseBound ih.2.2
    have hoperands := feeds_bind (by omega) h1 (feeds_bind (by omega) h2 h3)
    have hassoc : (Node.sliceObj start stop step).ownCourse =
        ((do courseBound start; courseBound stop; courseBound step) >>= fun _ =>
          Course.step 3 (-2)) := by
      rw [ownCourse]
      simp only [Course.bind_assoc]
    rw [Fed, course, hassoc]
    exact feeds_promised hoperands (straight_step _ _) (by simp only [effect]; omega)
  | slice base start stop step =>
    simp only [children, present_cons, present_nil, append_nil, forall_mem_append,
      forall_mem_cons] at ih
    obtain ⟨e1, hlow1, hhigh1, h1⟩ := feeds_courseBound ih.2.1
    obtain ⟨e2, hlow2, hhigh2, h2⟩ := feeds_courseBound ih.2.2.1
    obtain ⟨e3, hlow3, hhigh3, h3⟩ := feeds_courseBound ih.2.2.2
    have := base.effect_nonneg
    have := base.effect_le_one
    have hoperands := feeds_bind (by omega) ih.1 (feeds_bind (by omega) h1
      (feeds_bind (by omega) h2 h3))
    have hassoc : (Node.slice base start stop step).ownCourse =
        ((do base.course; courseBound start; courseBound stop; courseBound step) >>= fun _ => do
          Course.step 3 (-2)
          Course.step 2 (-1)) := by
      rw [ownCourse]
      simp only [Course.bind_assoc, course]
    rw [Fed, course, hassoc]
    exact feeds_promised hoperands straight_slice (by simp only [effect]; omega)
  | attr base name =>
    rw [Fed, course, ownCourse]
    exact feeds_single (ih base (by simp))
  | call callee args star keywords doubleStar method =>
    exact feeds_call ih (ihBelow callee (by simp)) hready
  | store name value =>
    have := value.effect_nonneg
    rw [Fed, course, ownCourse]
    exact feeds_promised (ih value (by simp)) (straight_step _ _) (by simp only [effect]; omega)
  | sequence steps =>
    rw [Fed, course, ownCourse]
    cases steps with
    | nil =>
      -- Without steps there is no value, which the promise does not allow.
      refine ⟨still_promised ?_, by simp [effect, lastEffect], fun d s' log h => ?_⟩
      · rw [courseSteps]
        exact still_pure ()
      · obtain ⟨hcourse, hpromise⟩ := promised_eq_some.mp h
        rw [courseSteps] at hcourse
        cases hcourse
        have hnet := hpromise rfl
        rw [Int.sub_self] at hnet
        cases hnet
    | cons first rest => exact feeds_check (feeds_courseSteps ih (cons_ne_nil _ _))
  | next pair => exact feeds_next (ih pair (by simp))

end Node

end ExprBackend
