import ExprBackend.Proofs.CachedAnswers
import ExprBackend.Proofs.ExpressionCourse
import ExprBackend.Proofs.Invocation

/-! # The stack contract of expressions

Every expression whose operands have a value keeps its promise in every buffer: its
emission succeeds, it takes nothing from below the height at which it starts, and it
ends as much higher as the expression says. That holds also if a cache takes over
parts of the expression, since the code that looks for a value leaves the stack as
it was.

The argument runs over the structure of expressions with the labels that are at hand.
A label that is made is known by the height at which it was jumped to, and is
placed where the code has that height.
-/

namespace ExprBackend

open List Opcode

variable {Q : Node → Prop} {c c1 : Code} {change d d' floor : Int} {hands : List (Label × Int)}
  {id : Nat} {live : Bool} {n : Node} {r : Region} {s s' : Standing} {steps : List Node}
  {x : Emit Unit}

/-- A height between zero and the largest word is kept as it is. -/
theorem height_of_lt {n : Int} (hlow : 0 ≤ n) (hhigh : n < 2 ^ 63) : height n = n := by
  rw [height]
  apply Int.bmod_eq_of_le <;> omega

/-! ## Buffers that stay above a floor -/

namespace Code

/-- One step of an emission. An instruction takes no operands from below a floor. -/
inductive Step (floor : Int) (c : Code) : Code → Prop
  | instr {op : Opcode} {operand : Int} : floor + op.reads operand.toNat ≤ c.depth →
      Step floor c (c.appended op operand (op.change operand.toNat))
  | constant (v : Value) : Step floor c (c.pooled v)
  | slot (name : Text) : Step floor c (c.declared name)
  | label : Step floor c c.labelled
  | branch {l : Label} {d : Int} {c' : Code} : c.Branches l d c' → Step floor c c'
  | place {l : Label} {info : LabelInfo} : c.label? l = some info → info.position = none →
      Step floor c (c.marked l info)
  | leave : Step floor c c.ended
  | note (emitting : List LazySignature) (events : Array Event)
      (observations : Array Observation) : Step floor c (c.noted emitting events observations)
  | regard (scratch : List (Text × Scratch)) (regions : List (Nat × Region)) :
      Step floor c (c.regarded scratch regions)

/-- An emission leads from a buffer to another, and its height never falls below a floor. Within the
prologue it starts and ends with an empty stack. -/
inductive Stays : Int → Code → Code → Prop
  | refl {floor : Int} {c : Code} : floor ≤ c.depth → Stays floor c c
  | step {floor : Int} {c c1 c2 : Code} : Stays floor c c1 → Step floor c1 c2 → floor ≤ c2.depth →
      Stays floor c c2
  | prologue {floor : Int} {c c1 inner : Code} : Stays floor c c1 → c1.inPrologue = false →
      Stays 0 c1.opened inner → inner.depth = 0 → Stays floor c (c1.closed inner)

theorem Stays.trans {c2 : Code} (h : Stays floor c c1) (h' : Stays floor c1 c2) :
    Stays floor c c2 := by
  induction h' with
  | refl _ => exact h
  | step _ hstep hfloor ih => exact .step (ih h) hstep hfloor
  | prologue _ houtside hinner hdepth ih _ => exact .prologue (ih h) houtside hinner hdepth

end Code

/-! ## Caches that can be asked -/

/-- The answers that are remembered were found for expressions of a class. -/
def Region.Recalls (Q : Node → Prop) (r : Region) : Prop :=
  ∀ signature answer, r.depends.lookup signature = some answer →
    ∃ k names, Q k ∧ signature = .ofText k.signature ∧ answer = k.dependsOn names

/-- Nothing intercepts the emission but a single cache. It remembers answers about expressions of a
class, in which a signature determines the names; if it has not been asked before, nothing stands in
the way of its region. -/
def Code.Hosts (Q : Node → Prop) (c : Code) : Prop :=
  ∀ first, c.interceptor = some first → Node.Canonical Q ∧ ∃ id, first = .cache id ∧
    (∀ r, c.regions.lookup id = some r → r.next = none ∧ r.Recalls Q) ∧
    (c.regions.lookup id = none → ∀ v, c.scratch.lookup regionCountKey ≠ some (.value v))

namespace Node

theorem exists_effect_of_lastEffect (h : lastEffect steps = 0) : ∃ m ∈ steps, m.effect = 0 := by
  induction steps with
  | nil => cases h
  | cons n rest ih =>
    cases rest with
    | nil => exact ⟨n, mem_cons_self, h⟩
    | cons m rest =>
      obtain ⟨k, hk, heffect⟩ := ih h
      exact ⟨k, .tail _ hk, heffect⟩

/-- What has no value ends with an assignment. -/
theorem exists_store_of_effect (n : Node) :
    n.effect = 0 → ∃ name value, Node.store name value ∈ n.subexpressions := by
  induction n using descent with
  | h n ih _ =>
    intro heffect
    rw [subexpressions_eq]
    cases n with
    | store name value => exact ⟨name, value, mem_cons_self⟩
    | sequence steps =>
      obtain ⟨m, hm, heffect⟩ := exists_effect_of_lastEffect heffect
      obtain ⟨name, value, hstore⟩ := ih m hm heffect
      exact ⟨name, value, .tail _ (mem_flatMap.mpr ⟨m, hm, hstore⟩)⟩
    | _ => cases heffect

theorem effect_eq_one_of_dependsOn {names : List Text} (h : n.dependsOn names = false) :
    n.effect = 1 := by
  refine n.effect_eq.resolve_left fun heffect => ?_
  obtain ⟨name, value, hstore⟩ := n.exists_store_of_effect heffect
  have hmember := any_eq_false.mp h _ hstore
  exact hmember rfl

end Node

theorem Region.Recalls.assign (h : r.Recalls Q) (name : Text) : (r.assign name).Recalls Q := by
  unfold Region.assign
  split
  · exact h
  · intro signature answer hanswer
    cases hanswer

/-- An expression of which a cache says that it can be kept has a value. -/
theorem Region.Recalls.readsVolatile (hQ : Node.Canonical Q) (h : r.Recalls Q) (hn : Q n) :
    (r.readsVolatile n).2.Recalls Q ∧ ((r.readsVolatile n).1 = false → n.effect = 1) := by
  cases hlookup : r.depends.lookup (.ofText n.signature) with
  | some answer =>
    have hread : r.readsVolatile n = (answer, r) := by
      simp only [Region.readsVolatile, hlookup]
    rw [hread]
    refine ⟨h, fun hanswer => ?_⟩
    obtain ⟨k, names, hk, hsignature, hsame⟩ := h _ _ hlookup
    have hindependent : n.dependsOn names = false := by
      rw [hQ n k hn hk (congrArg HashedText.text hsignature), ← hsame]
      exact hanswer
    exact Node.effect_eq_one_of_dependsOn hindependent
  | none =>
    have hread : r.readsVolatile n = (n.dependsOn r.volatile,
        { r with depends := (.ofText n.signature, n.dependsOn r.volatile) :: r.depends }) := by
      simp only [Region.readsVolatile, hlookup]
    rw [hread]
    refine ⟨fun signature answer hanswer => ?_, Node.effect_eq_one_of_dependsOn⟩
    dsimp only at hanswer
    rw [lookup_cons] at hanswer
    split at hanswer
    next hsame => exact ⟨n, r.volatile, hn, eq_of_beq hsame, (Option.some.inj hanswer).symm⟩
    next => exact h _ _ hanswer

theorem Region.Recalls.offered (hQ : Node.Canonical Q) (h : r.Recalls Q) (hn : Q n)
    (marked : Bool) :
    (r.offered n marked).2.Recalls Q ∧ ((r.offered n marked).1 = true → n.effect = 1) := by
  have hseen : (r.sees n).Recalls Q := by
    cases n with
    | store name value => exact h.assign name
    | _ => exact h
  cases marked with
  | false => exact ⟨hseen, fun htaken => absurd htaken Bool.false_ne_true⟩
  | true =>
    obtain ⟨hrecalls, hvalue⟩ := hseen.readsVolatile hQ hn
    exact ⟨hrecalls, fun htaken => hvalue (by simpa [Region.offered] using htaken)⟩

/-- A single cache takes over the emission of an expression that has a value, or leaves it alone. -/
theorem Code.Hosts.interceptable (marks : Marks) (hn : Q n) (hc : c.Hosts Q) (x : Emit Unit) :
    ∃ scratch regions ordinal taken, (c.regarded scratch regions).Hosts Q ∧
      (taken = true → n.effect = 1) ∧
      (Emit.interceptable n x marks c : Except Failure Unit × Code) =
        (if taken then Emit.cached ordinal n x else x) marks (c.regarded scratch regions) := by
  cases hinterceptor : c.interceptor with
  | none =>
    refine ⟨c.scratch, c.regions, 0, false, hc, fun htaken => absurd htaken Bool.false_ne_true, ?_⟩
    rw [Emit.interceptable, Emit.run_get_bind, hinterceptor]
    rfl
  | some first =>
    obtain ⟨hQ, id, rfl, hregion, hcount⟩ := hc first hinterceptor
    obtain ⟨hnone, ⟨v, hforeign⟩, -⟩ | ⟨r, scratch, regions, hr, hopens, hrun⟩ :=
      Emit.run_interceptable marks n x hinterceptor fun r hr => (hregion r hr).1
    · exact absurd hforeign (hcount hnone v)
    have hknown : r.next = none ∧ r.Recalls Q := by
      rcases hr with hr | ⟨ordinal, rfl⟩
      · exact hregion r hr
      · exact ⟨rfl, fun _ _ hanswer => by cases hanswer⟩
    obtain ⟨hrecalls, hvalue⟩ := hknown.2.offered hQ hn (marks id n.signature && c.reachable)
    refine ⟨scratch, regions, r.ordinal, _, fun first hfirst => ?_, hvalue, hrun⟩
    cases hinterceptor.symm.trans hfirst
    refine ⟨hQ, id, rfl, fun r' hr' => ?_, fun hnone => ?_⟩
    · cases hopens.1.symm.trans hr'
      exact ⟨(r.offered_next n _).trans hknown.1, hrecalls⟩
    · cases hopens.1.symm.trans hnone

/-! ## Emissions that settle -/

namespace Code

/-- A buffer in a standing, with labels at hand that are not placed. Of each of them a height is
known, or none as long as it is negative. -/
structure Handed (Q : Node → Prop) (s : Standing) (hands : List (Label × Int)) (c : Code) :
    Prop where
  outside : c.inPrologue = false
  standing : c.standing = s
  waiting : ∀ l d, (l, d) ∈ hands → c.label? l = some ⟨none, d⟩
  distinct : (hands.map Prod.fst).Nodup
  hosts : c.Hosts Q

variable {c' : Code}

theorem Handed.depth (h : c.Handed Q ⟨d, live⟩ hands) : c.depth = d :=
  congrArg Standing.depth h.standing

theorem Handed.reachable (h : c.Handed Q ⟨d, live⟩ hands) : c.reachable = live :=
  congrArg Standing.reachable h.standing

theorem Handed.le_depth (h : c.Handed Q s hands) (hfloor : floor ≤ s.depth) : floor ≤ c.depth := by
  rw [← h.standing] at hfloor
  exact hfloor

/-- A buffer that has the same labels and asks the same cache. -/
theorem Handed.of_labels (h : c.Handed Q s hands) (houtside : c'.inPrologue = false)
    (hstanding : c'.standing = s') (hlabels : c'.labels = c.labels) (hhosts : c'.Hosts Q) :
    c'.Handed Q s' hands where
  outside := houtside
  standing := hstanding
  waiting l d hmem := (label?_of_labels_eq hlabels l).trans (h.waiting l d hmem)
  distinct := h.distinct
  hosts := hhosts

/-- What was observed along the way was reachable. -/
def Observed (c c' : Code) : Prop := ∀ o ∈ c'.observations, o ∈ c.observations ∨ o.reachable = true

theorem Observed.of_eq (h : c'.observations = c.observations) : c.Observed c' :=
  fun _ ho => .inl (h ▸ ho)

theorem Observed.trans {c'' : Code} (h : c.Observed c') (h' : c'.Observed c'') : c.Observed c'' :=
  fun o ho => (h' o ho).elim (h o) .inr

end Code

namespace Emit

/-- The emission stops since there is no room in the pool. -/
def Overflows {α : Type} (x : Emit α) (marks : Marks) (c : Code) : Prop :=
  ∃ c', (x marks c : Except Failure α × Code) = (.error (.fault .fullPool), c') ∧
    65536 < c'.chunk.constants.size

/-- The emission succeeds if there is room in the pool. It leads from a standing to another without
falling below a floor, and from labels at hand to others. -/
def Settles {α : Type} (Q : Node → Prop) (floor : Int) (s : Standing) (hands : List (Label × Int))
    (x : Emit α) (s' : Standing) (after : α → List (Label × Int)) : Prop :=
  ∀ marks c, c.Handed Q s hands →
    (∃ a c', x.Yields marks c a c' ∧ c'.Handed Q s' (after a) ∧ c.Stays floor c' ∧ c.Observed c') ∨
      x.Overflows marks c

section Settles

variable {α β : Type} {known : Int} {s1 : Standing} {before rest : List (Label × Int)} {l : Label}
  {x : Emit α} {after : β → List (Label × Int)} {op : Opcode} {operand k : Int} {l' : Label}

theorem settles_pure (a : α) (hfloor : floor ≤ s.depth) :
    Settles Q floor s hands (pure a) s fun _ => hands := by
  intro marks c hc
  exact .inl ⟨a, c, yields_pure.mpr ⟨rfl, rfl⟩, hc, .refl (hc.le_depth hfloor), .of_eq rfl⟩

theorem Overflows.not_le (h : x.Overflows marks c) :
    ¬(x marks c : Except Failure α × Code).2.chunk.constants.size ≤ 65536 := by
  obtain ⟨c', hrun, hfull⟩ := h
  rw [hrun]
  exact Nat.not_le.mpr hfull

theorem Overflows.bind (hx : x.Overflows marks c) (f : α → Emit β) :
    (x >>= f).Overflows marks c := by
  obtain ⟨c', hrun, hfull⟩ := hx
  exact ⟨c', by rw [run_bind, hrun], hfull⟩

theorem Overflows.later {a : α} {f : α → Emit β} (hx : x.Yields marks c a c1)
    (hf : (f a).Overflows marks c1) : (x >>= f).Overflows marks c := by
  obtain ⟨c', hrun, hfull⟩ := hf
  refine ⟨c', ?_, hfull⟩
  rw [run_bind, show (x marks c : Except Failure α × Code) = (.ok a, c1) from hx]
  exact hrun

theorem Settles.bind {f : α → Emit β} {after : α → List (Label × Int)}
    {after' : β → List (Label × Int)} (hx : Settles Q floor s hands x s1 after)
    (hf : ∀ a, Settles Q floor s1 (after a) (f a) s' after') :
    Settles Q floor s hands (x >>= f) s' after' := by
  intro marks c hc
  rcases hx marks c hc with ⟨a, c1, hx, hc1, hstays, hobserved⟩ | hfull
  · rcases hf a marks c1 hc1 with ⟨b, c', hf, hc', hstays', hobserved'⟩ | hfull
    · exact .inl ⟨b, c', yields_bind.mpr ⟨a, c1, hx, hf⟩, hc', hstays.trans hstays',
        hobserved.trans hobserved'⟩
    · exact .inr (.later hx hfull)
  · exact .inr (hfull.bind f)

theorem settles_get_bind {f : Code → Emit β}
    (hf : ∀ c : Code, c.standing = s → Settles Q floor s hands (f c) s' after) :
    Settles Q floor s hands (get >>= f) s' after := by
  intro marks c hc
  rcases hf c hc.standing marks c hc with ⟨b, c', hyields, hrest⟩ | hfull
  · exact .inl ⟨b, c', yields_get_bind.mpr hyields, hrest⟩
  · exact .inr (.later (yields_get.mpr ⟨rfl, rfl⟩) hfull)

/-- A step that changes neither the standing nor the labels. -/
theorem settles_silent (hfloor : floor ≤ s.depth)
    (hx : ∀ marks (c : Code), (∃ a c', x.Yields marks c a c' ∧ c.Step floor c' ∧
      c'.inPrologue = c.inPrologue ∧ c'.standing = c.standing ∧ c'.labels = c.labels ∧
      c'.observations = c.observations ∧ (c.Hosts Q → c'.Hosts Q)) ∨ x.Overflows marks c) :
    Settles Q floor s hands x s fun _ => hands := by
  intro marks c hc
  refine (hx marks c).imp_left fun h => ?_
  obtain ⟨a, c', hyields, hstep, hinside, hstanding, hlabels, hobservations, hhosts⟩ := h
  have hdepth := hc.le_depth hfloor
  refine ⟨a, c', hyields, hc.of_labels (hinside.trans hc.outside) (hstanding.trans hc.standing)
    hlabels (hhosts hc.hosts), .step (.refl hdepth) hstep ?_, .of_eq hobservations⟩
  rw [show c'.depth = c.depth from congrArg Standing.depth hstanding]
  exact hdepth

theorem settles_addConstant (v : Value) (hfloor : floor ≤ s.depth) :
    Settles Q floor s hands (addConstant v) s fun _ => hands := by
  refine settles_silent hfloor fun marks c => ?_
  by_cases hroom : (c.pooled v).chunk.constants.size ≤ max c.chunk.constants.size 65536
  · refine .inl ⟨c.constantIndex v, c.pooled v, ?_, .constant v, rfl, rfl, rfl, rfl, id⟩
    rw [Yields, run_addConstant, if_pos hroom]
  · refine .inr ⟨c.pooled v, by rw [run_addConstant, if_neg hroom], ?_⟩
    omega

theorem settles_localSlot (name : Text) (hfloor : floor ≤ s.depth) :
    Settles Q floor s hands (localSlot name) s fun _ => hands := by
  refine settles_silent hfloor fun _ c =>
    .inl ⟨_, _, yields_localSlot.mpr ⟨rfl, rfl⟩, .slot name, ?_⟩
  have heq := c.declared_eq name
  rw [heq]
  exact ⟨rfl, rfl, rfl, rfl, id⟩

theorem settles_report (event : Event) (hfloor : floor ≤ s.depth) :
    Settles Q floor s hands (report event) s fun _ => hands :=
  settles_silent hfloor fun _ _ =>
    .inl ⟨(), _, yields_report.mpr rfl, .note .., rfl, rfl, rfl, rfl, id⟩

/-- An instruction that finds its operands above the floor. -/
theorem settles_append (d' : Int) (hchange : op.change operand.toNat = change)
    (hfits : 0 ≤ floor ∧ floor + op.reads operand.toNat ≤ d ∧ d + op.change operand.toNat = d' ∧
      d' < 2 ^ 63) :
    Settles Q floor ⟨d, live⟩ hands (append op operand change) ⟨d', live⟩ fun _ => hands := by
  intro marks c hc
  subst hchange
  obtain ⟨hfloor, hreads, hd, hroom⟩ := hfits
  have hbalance := reads_add_change op operand.toNat
  have hlow : floor ≤ d' := by omega
  have hdepth : (c.appended op operand (op.change operand.toNat)).depth = d' := by
    rw [Code.appended_depth, hc.depth, hd]
    exact height_of_lt (by omega) hroom
  refine .inl ⟨(), _, yields_append.mpr rfl, hc.of_labels hc.outside ?_ rfl hc.hosts,
    .step (.refl ?_) (.instr ?_) (hdepth.symm ▸ hlow), .of_eq rfl⟩
  · rw [Code.standing, hdepth, Code.appended_reachable, hc.reachable]
  · rw [hc.depth]
    omega
  · rw [hc.depth]
    exact hreads

/-- An instruction with the number of its operands and the change of the height. -/
theorem settles_instr (reads : Nat) (change d' : Int)
    (hop : (op.reads operand.toNat, op.change operand.toNat) = (reads, change))
    (hfits : 0 ≤ floor ∧ floor + reads ≤ d ∧ d + change = d' ∧ d' < 2 ^ 63) :
    Settles Q floor ⟨d, live⟩ hands (append op operand change) ⟨d', live⟩ fun _ => hands := by
  cases hop
  exact settles_append d' rfl hfits

/-- An instruction of which the operand is a constant. -/
theorem settles_withConstant (v : Value) (d' : Int)
    (hop : ∀ i : Nat, op.change (i : Int).toNat = change)
    (hfits : ∀ i : Nat, 0 ≤ floor ∧ floor + op.reads (i : Int).toNat ≤ d ∧
      d + op.change (i : Int).toNat = d' ∧ d' < 2 ^ 63) :
    Settles Q floor ⟨d, live⟩ hands (do append op (← addConstant v) change)
      ⟨d', live⟩ fun _ => hands := by
  have hlow : floor ≤ d := by
    have := hfits 0
    omega
  exact (settles_addConstant v hlow).bind fun i => settles_append d' (hop i) (hfits i)

theorem settles_loadConst (v : Value) (d' : Int)
    (hfits : 0 ≤ floor ∧ floor ≤ d ∧ d + 1 = d' ∧ d' < 2 ^ 63) :
    Settles Q floor ⟨d, live⟩ hands (loadConst v) ⟨d', live⟩ fun _ => hands :=
  settles_withConstant v d' (fun _ => rfl) fun _ => by
    simpa only [reads, change, Int.natCast_zero, Int.add_zero] using hfits

theorem settles_loadLocal (slot : Int) (d' : Int)
    (hfits : 0 ≤ floor ∧ floor ≤ d ∧ d + 1 = d' ∧ d' < 2 ^ 63) :
    Settles Q floor ⟨d, live⟩ hands (loadLocal slot) ⟨d', live⟩ fun _ => hands :=
  settles_append d' rfl (by simpa only [reads, change, Int.natCast_zero, Int.add_zero] using hfits)

theorem settles_loadName (name : Text) (d' : Int)
    (hfits : 0 ≤ floor ∧ floor ≤ d ∧ d + 1 = d' ∧ d' < 2 ^ 63) :
    Settles Q floor ⟨d, live⟩ hands (loadName name) ⟨d', live⟩ fun _ => hands := by
  refine settles_get_bind fun c _ => ?_
  cases c.slot? name with
  | some slot => exact settles_loadLocal slot d' hfits
  | none =>
    refine settles_withConstant _ d' (fun _ => rfl) fun _ => ?_
    simpa only [reads, change, Int.natCast_zero, Int.add_zero] using hfits

theorem settles_storeName (name : Text) (d' : Int)
    (hfits : 0 ≤ floor ∧ floor ≤ d' ∧ d' + 1 = d ∧ d < 2 ^ 63) :
    Settles Q floor ⟨d, live⟩ hands (storeName name) ⟨d', live⟩ fun _ => hands := by
  refine (settles_localSlot name (by dsimp only; omega)).bind fun _ => ?_
  exact settles_instr 1 (-1) d' rfl (by omega)

/-- The slot of the dictionary is there, or is declared and emptied in the prologue. -/
theorem settles_cacheSlot (hfloor : floor ≤ s.depth) :
    Settles Q floor s hands cacheSlot s fun _ => hands := by
  intro marks c hc
  have hdepth := hc.le_depth hfloor
  cases hslot : c.slot? cacheSlotName with
  | some slot =>
    refine .inl ⟨slot, c, ?_, hc, .refl hdepth, .of_eq rfl⟩
    rw [cacheSlot, yields_get_bind, hslot]
    exact yields_pure.mpr ⟨rfl, rfl⟩
  | none =>
    have hyields := yields_cacheSlot_new marks hslot hc.outside
    have heq := c.declared_eq cacheSlotName
    refine .inl ⟨_, _, hyields, ?_, .prologue
      (.step (.refl hdepth) (.slot cacheSlotName) ?_) ?_ ?_ rfl, .of_eq (by rw [heq]; rfl)⟩
    · exact hc.of_labels rfl (by rw [heq]; exact hc.standing) (by rw [heq]; rfl)
        (by rw [heq]; exact hc.hosts)
    · rw [heq]
      exact hdepth
    · rw [heq]
      exact hc.outside
    · -- The dictionary is emptied from an empty stack.
      have hload : Code.Step 0 (c.declared cacheSlotName).opened
          ((c.declared cacheSlotName).opened.appended .loadNone 0 1) := .instr (Int.le_refl 0)
      exact .step (.step (.refl (Int.le_refl 0)) hload Int.one_nonneg) (.instr (Int.le_refl 1))
        (Int.le_refl 0)

/-! ### Labels -/

/-- A label that is made is at hand. -/
theorem settles_newLabel {f : Label → Emit β} (hfloor : floor ≤ s.depth)
    (hf : ∀ l, Settles Q floor s ((l, -1) :: hands) (f l) s' after) :
    Settles Q floor s hands (newLabel >>= f) s' after := by
  intro marks c hc
  have hdepth := hc.le_depth hfloor
  have hlabelled : c.labelled.Handed Q s (((c.labels.size : Int), -1) :: hands) := by
    refine ⟨hc.outside, hc.standing, ?_, ?_, hc.hosts⟩
    · intro l d hmem
      rcases mem_cons.mp hmem with heq | hmem
      · obtain ⟨rfl, rfl⟩ := Prod.mk.inj heq
        exact Code.label?_labelled_new c
      · exact Code.label?_labelled (hc.waiting l d hmem)
    · refine nodup_cons.mpr ⟨fun hmem => ?_, hc.distinct⟩
      obtain ⟨⟨l, d⟩, hmem, heq⟩ := mem_map.mp hmem
      exact ne_size_of_label? (hc.waiting l d hmem) heq
  have hnew : newLabel.Yields marks c (c.labels.size : Int) c.labelled :=
    yields_newLabel.mpr ⟨rfl, rfl⟩
  rcases hf _ marks _ hlabelled with ⟨b, c', hyields, hc', hstays, hobserved⟩ | hfull
  · refine .inl ⟨b, c', yields_bind.mpr ⟨_, _, hnew, hyields⟩, hc', ?_, hobserved⟩
    exact Code.Stays.trans (.step (.refl hdepth) .label hdepth) hstays
  · exact .inr (.later hnew hfull)

theorem mem_hands (h : (l', k) ∈ before ++ rest) : (l', k) ∈ before ++ (l, known) :: rest := by
  rcases mem_append.mp h with h | h
  · exact mem_append_left _ h
  · exact mem_append_right _ (.tail _ h)

theorem ne_of_hands (hc : c.Handed Q s (before ++ (l, known) :: rest))
    (h : (l', k) ∈ before ++ rest) : l' ≠ l := by
  rintro rfl
  have hdistinct := hc.distinct
  rw [map_append, map_cons, nodup_middle] at hdistinct
  apply (nodup_cons.mp hdistinct).1
  rw [← map_append]
  exact mem_map.mpr ⟨_, h, rfl⟩

theorem waiting_hands (hc : c.Handed Q s (before ++ (l, known) :: rest)) :
    c.label? l = some ⟨none, known⟩ :=
  hc.waiting l known (mem_append_right _ mem_cons_self)

/-- A label is placed where the code has the height that is known of it, or where it is reached only
from there. -/
theorem settles_mark (before rest : List (Label × Int)) (l : Label) (d' : Int)
    (hfits : 0 ≤ floor ∧ floor ≤ d ∧ floor ≤ d' ∧
      if live then d = d' ∧ (0 ≤ known → known = d) else known = d') :
    Settles Q floor ⟨d, live⟩ (before ++ (l, known) :: rest) (mark l) ⟨d', true⟩
      fun _ => before ++ rest := by
  intro marks c hc
  obtain ⟨hzero, hfloor, hlow, hknown⟩ := hfits
  have hlabel := waiting_hands hc
  obtain ⟨_, hrun⟩ := run_mark_hand marks hc.outside hlabel
  have hfits : ¬(c.reachable = true ∧ 0 ≤ known ∧ known ≠ c.depth) := by
    rw [hc.reachable, hc.depth]
    rintro ⟨rfl, hhanded, hne⟩
    exact hne (hknown.2 hhanded)
  rw [if_neg hfits] at hrun
  have hstanding : (c.marked l ⟨none, known⟩).standing = ⟨d', true⟩ := by
    rw [Code.standing, Code.marked_depth, Code.marked_reachable, hc.reachable, hc.depth]
    cases live with
    | true => simpa using hknown.1
    | false =>
      obtain rfl : known = d' := hknown
      have hhanded : 0 ≤ known := by omega
      simp [hhanded]
  refine .inl ⟨(), _, hrun, ⟨hc.outside, hstanding, ?_, ?_, hc.hosts⟩,
    .step (.refl (hc.depth.symm ▸ hfloor)) (.place hlabel rfl) ?_, .of_eq rfl⟩
  · intro l' k hmem
    rw [Code.label?_set_other (c := c) rfl (ne_of_hands hc hmem) (Code.lt_of_label? hlabel).1]
    exact hc.waiting l' k (mem_hands hmem)
  · have hdistinct := hc.distinct
    rw [map_append, map_cons, nodup_middle] at hdistinct
    rw [map_append]
    exact (nodup_cons.mp hdistinct).2
  · rw [show (c.marked l ⟨none, known⟩).depth = d' from congrArg Standing.depth hstanding]
    exact hlow

/-- A jump to a label makes its height known. -/
theorem settles_branchTo (before rest : List (Label × Int)) (l : Label) (hfloor : floor ≤ d)
    (hsame : 0 ≤ known → known = d') :
    Settles Q floor ⟨d, true⟩ (before ++ (l, known) :: rest) (branchTo l d') ⟨d, true⟩
      fun _ => before ++ (l, d') :: rest := by
  intro marks c hc
  have hlabel := waiting_hands hc
  have hrun : (branchTo l d').Yields marks c () (c.withLabel l ⟨none, d'⟩) := by
    rw [Yields, run_branchTo_hand hlabel, if_pos hc.reachable, if_neg]
    rintro ⟨hknown, hne⟩
    exact hne (hsame hknown)
  have hbranches : c.Branches l d' (c.withLabel l ⟨none, d'⟩) :=
    .forward hc.reachable hlabel rfl hsame
  have hdepth := hc.le_depth hfloor
  refine .inl ⟨(), _, hrun, ⟨hc.outside, hc.standing, ?_, ?_, hc.hosts⟩,
    .step (.refl hdepth) (.branch hbranches) hdepth, .of_eq rfl⟩
  · intro l' k hmem
    by_cases hl : l' = l
    · subst hl
      have hk : k = d' := by
        rcases mem_append.mp hmem with hmem | hmem
        · exact absurd rfl (ne_of_hands hc (mem_append_left rest hmem))
        · rcases mem_cons.mp hmem with heq | hmem
          · exact (Prod.mk.inj heq).2
          · exact absurd rfl (ne_of_hands hc (mem_append_right before hmem))
      rw [hk]
      exact Code.label?_set_same (c := c) rfl hlabel
    · rw [Code.label?_set_other (c := c) rfl hl (Code.lt_of_label? hlabel).1]
      refine hc.waiting l' k ?_
      rcases mem_append.mp hmem with hmem | hmem
      · exact mem_append_left _ hmem
      · rcases mem_cons.mp hmem with heq | hmem
        · exact absurd (Prod.mk.inj heq).1 hl
        · exact mem_append_right _ (.tail _ hmem)
  · have hdistinct := hc.distinct
    rw [map_append, map_cons] at hdistinct ⊢
    exact hdistinct

/-- A jump to a label from where the code stands. -/
theorem settles_branchHere (before rest : List (Label × Int)) (l : Label) (hfloor : floor ≤ d)
    (hsame : 0 ≤ known → known = d) :
    Settles Q floor ⟨d, true⟩ (before ++ (l, known) :: rest) (do branchTo l (← get).depth) ⟨d, true⟩
      fun _ => before ++ (l, d) :: rest := by
  refine settles_get_bind fun c hc => ?_
  rw [show c.depth = d from congrArg Standing.depth hc]
  exact settles_branchTo before rest l hfloor hsame

theorem settles_endReach (hfloor : floor ≤ d) :
    Settles Q floor ⟨d, live⟩ hands endReach ⟨d, false⟩ fun _ => hands := by
  intro marks c hc
  have hdepth := hc.le_depth hfloor
  refine .inl ⟨(), _, yields_endReach.mpr rfl, hc.of_labels hc.outside ?_ rfl hc.hosts,
    .step (.refl hdepth) .leave hdepth, .of_eq rfl⟩
  rw [Code.standing, Code.ended_depth, hc.depth]
  rfl

theorem settles_jump (before rest : List (Label × Int)) (l : Label)
    (hfits : 0 ≤ floor ∧ floor ≤ d ∧ (0 ≤ known → known = d) ∧ d < 2 ^ 63) :
    Settles Q floor ⟨d, true⟩ (before ++ (l, known) :: rest) (jump l) ⟨d, false⟩
      fun _ => before ++ (l, d) :: rest := by
  obtain ⟨hzero, hfloor, hsame, hroom⟩ := hfits
  refine settles_get_bind fun c hc => ?_
  rw [show c.depth = d from congrArg Standing.depth hc]
  refine (settles_branchTo before rest l hfloor hsame).bind fun _ => ?_
  refine Settles.bind (settles_append d rfl ?_) fun _ => settles_endReach hfloor
  simp only [reads, change]
  omega

theorem settles_popJump (before rest : List (Label × Int)) (l : Label) (d' : Int)
    (hop : op.reads l.toNat = 1 ∧ op.change l.toNat = -1)
    (hfits : 0 ≤ floor ∧ floor ≤ d' ∧ d' + 1 = d ∧ (0 ≤ known → known = d') ∧ d < 2 ^ 63) :
    Settles Q floor ⟨d, true⟩ (before ++ (l, known) :: rest) (popJump op l) ⟨d', true⟩
      fun _ => before ++ (l, d') :: rest := by
  obtain ⟨hzero, hfloor, hd, hsame, hroom⟩ := hfits
  refine Settles.bind (settles_append d' hop.2 ?_) fun _ =>
    settles_branchHere before rest l hfloor hsame
  rw [hop.1, hop.2]
  omega

theorem settles_jumpOrPop (before rest : List (Label × Int)) (l : Label) (d' : Int)
    (hop : op.reads l.toNat = 1 ∧ op.change l.toNat = -1)
    (hfits : 0 ≤ floor ∧ floor ≤ d' ∧ d' + 1 = d ∧ (0 ≤ known → known = d) ∧ d < 2 ^ 63) :
    Settles Q floor ⟨d, true⟩ (before ++ (l, known) :: rest) (jumpOrPop op l) ⟨d', true⟩
      fun _ => before ++ (l, d) :: rest := by
  obtain ⟨hzero, hfloor, hd, hsame, hroom⟩ := hfits
  refine settles_get_bind fun c hc => ?_
  rw [show c.depth = d from congrArg Standing.depth hc]
  refine (settles_branchTo before rest l (by omega) hsame).bind fun _ => ?_
  refine settles_append d' hop.2 ?_
  rw [hop.1, hop.2]
  omega

end Settles

/-! ## Looking for a value first -/

section Cached

/-- Code that looks for a value first leaves the stack as the code that computes it. -/
theorem settles_cached (ordinal : Int)
    (hx : ∀ hands, Settles Q floor ⟨d, true⟩ hands x ⟨d + 1, true⟩ fun _ => hands)
    (hfits : 0 ≤ floor ∧ floor ≤ d ∧ d + 4 < 2 ^ 63) :
    Settles Q floor ⟨d, true⟩ hands (cached ordinal n x) ⟨d + 1, true⟩ fun _ => hands := by
  obtain ⟨hzero, hfloor, hroom⟩ := hfits
  refine (settles_cacheSlot hfloor).bind fun slot => settles_get_bind fun c _ => ?_
  refine (settles_report _ hfloor).bind fun _ => ?_
  refine settles_newLabel hfloor fun ready => settles_newLabel hfloor fun miss =>
    settles_newLabel hfloor fun done => ?_
  -- The dictionary is made unless it is there.
  refine (settles_loadLocal slot (d + 1) (by omega)).bind fun _ => ?_
  refine (settles_instr 0 1 (d + 2) rfl (by omega)).bind fun _ => ?_
  refine (settles_instr 2 (-1) (d + 1) rfl (by omega)).bind fun _ => ?_
  refine (settles_popJump [(done, -1), (miss, -1)] hands ready d ⟨rfl, rfl⟩
    (by omega)).bind fun _ => ?_
  refine (settles_instr 0 1 (d + 1) rfl (by omega)).bind fun _ => ?_
  refine (settles_instr 1 (-1) d rfl (by omega)).bind fun _ => ?_
  refine (settles_mark [(done, -1), (miss, -1)] hands ready d (by simp; omega)).bind fun _ => ?_
  -- The value is taken from the dictionary if it is found there.
  refine (settles_loadConst _ (d + 1) (by omega)).bind fun _ => ?_
  refine (settles_loadLocal slot (d + 2) (by omega)).bind fun _ => ?_
  refine (settles_instr 2 (-1) (d + 1) rfl (by omega)).bind fun _ => ?_
  refine (settles_popJump [(done, -1)] hands miss d ⟨rfl, rfl⟩ (by omega)).bind fun _ => ?_
  refine (settles_loadLocal slot (d + 1) (by omega)).bind fun _ => ?_
  refine (settles_loadConst _ (d + 2) (by omega)).bind fun _ => ?_
  refine (settles_instr 2 (-1) (d + 1) rfl (by omega)).bind fun _ => ?_
  refine (settles_jump [] ((miss, d) :: hands) done (by omega)).bind fun _ => ?_
  refine (settles_mark [(done, d + 1)] hands miss d (by simp; omega)).bind fun _ => ?_
  -- Otherwise it is computed, and goes to the dictionary.
  refine settles_get_bind fun before hbefore => (hx _).bind fun _ =>
    settles_get_bind fun after hafter =>
    settles_get_bind fun after' hafter' => ?_
  have hnet : height (after'.depth - before.depth) = 1 := by
    rw [show after'.depth = d + 1 from congrArg Standing.depth hafter',
      show before.depth = d from congrArg Standing.depth hbefore]
    exact height_of_lt (by omega) (by omega) |>.trans (by omega)
  have hreachable : after.reachable = true := congrArg Standing.reachable hafter
  rw [hreachable, hnet, if_neg (by decide)]
  refine (settles_instr 1 1 (d + 2) rfl (by omega)).bind fun _ => ?_
  refine (settles_loadLocal slot (d + 3) (by omega)).bind fun _ => ?_
  refine (settles_loadConst _ (d + 4) (by omega)).bind fun _ => ?_
  refine (settles_instr 3 (-3) (d + 1) rfl (by omega)).bind fun _ => ?_
  exact settles_mark [] hands done (d + 1) (by simp; omega)

/-- The emission raises the stack by a number of values wherever it has enough room. -/
def Raises (Q : Node → Prop) (room change : Int) (x : Emit Unit) : Prop :=
  ∀ floor d hands, 0 ≤ floor → floor ≤ d → d + room < 2 ^ 63 →
    Settles Q floor ⟨d, true⟩ hands x ⟨d + change, true⟩ fun _ => hands

theorem Raises.settles {room : Int} (h : Raises Q room change x) (d' : Int)
    (hfits : 0 ≤ floor ∧ floor ≤ d ∧ d + room < 2 ^ 63 ∧ d + change = d') :
    Settles Q floor ⟨d, true⟩ hands x ⟨d', true⟩ fun _ => hands := by
  obtain ⟨hzero, hfloor, hroom, rfl⟩ := hfits
  exact h floor d hands hzero hfloor hroom

/-- The gate lets an emission that keeps the promise of its expression pass, also if a cache takes
it over. -/
theorem Raises.expression {room : Int} (hn : Q n) (hroom : 4 ≤ room)
    (hx : Raises Q room n.effect x) : Raises Q room n.effect (expression n x) := by
  intro floor d hands hzero hfloor hfits marks c hc
  have hdepth := hc.le_depth hfloor
  obtain ⟨scratch, regions, ordinal, taken, hhosts, hvalue, hrun⟩ := Code.Hosts.interceptable
    (c := c.noted (n.lazySignature :: c.emitting) c.events c.observations) marks hn hc.hosts x
  have hhanded : ((c.noted (n.lazySignature :: c.emitting) c.events c.observations).regarded scratch
      regions).Handed Q ⟨d, true⟩ hands := hc.of_labels hc.outside hc.standing rfl hhosts
  have hnoted : c.Step floor (c.noted (n.lazySignature :: c.emitting) c.events c.observations) :=
    .note _ _ _
  have hstart : c.Stays floor ((c.noted (n.lazySignature :: c.emitting) c.events
      c.observations).regarded scratch regions) :=
    .step (.step (.refl hdepth) hnoted hdepth) (.regard _ _) hdepth
  have hinner : Settles Q floor ⟨d, true⟩ hands (if taken then cached ordinal n x else x)
      ⟨d + n.effect, true⟩ fun _ => hands := by
    cases taken with
    | false => exact hx floor d hands hzero hfloor hfits
    | true =>
      rw [hvalue rfl] at hx ⊢
      exact settles_cached ordinal (fun hands => hx floor d hands hzero hfloor hfits) (by omega)
  rcases hinner marks _ hhanded with ⟨_, c1, hyields, hhanded1, hstays, hobserved⟩ |
    ⟨c1, hyields, hfull⟩
  · have hpromise : height (c1.depth - c.depth) = n.effect := by
      rw [hhanded1.depth, hc.depth, show d + n.effect - d = n.effect by omega]
      rcases n.effect_eq with heffect | heffect <;> rw [heffect] <;> rfl
    have hend : floor ≤ c1.depth := by
      rw [hhanded1.depth]
      rcases n.effect_eq with heffect | heffect <;> omega
    have hgate := run_expression (hrun.trans hyields)
    rw [gated, if_neg (by simp [hpromise])] at hgate
    refine .inl ⟨(), _, hgate, hhanded1.of_labels hhanded1.outside hhanded1.standing rfl
      hhanded1.hosts, .step (hstart.trans hstays) (.note ..) hend, fun o ho => ?_⟩
    rw [Code.noted_observations] at ho
    split at ho
    · rcases Array.mem_push.mp ho with ho | rfl
      · exact hobserved o ho
      · exact .inr hhanded1.reachable
    · exact hobserved o ho
  · exact .inr ⟨_, run_expression (hrun.trans hyields), hfull⟩

end Cached

end Emit

/-! ## The code of each kind of expression -/

namespace Node

open Emit

/-- An upper bound for the room that the code of an expression needs. -/
def weight (n : Node) : Int := 4 * n.subexpressions.length

def weights (ns : List Node) : Int := (ns.map weight).sum

@[simp] theorem weights_nil : weights [] = 0 := rfl

@[simp] theorem weights_cons (n : Node) (ns : List Node) :
    weights (n :: ns) = n.weight + weights ns := by
  simp [weights]

@[simp] theorem weights_append (ns ms : List Node) :
    weights (ns ++ ms) = weights ns + weights ms := by
  simp [weights]

theorem weight_eq (n : Node) : n.weight = 4 + weights n.children := by
  have hbelow : ∀ ns : List Node, weights ns = 4 * (ns.flatMap subexpressions).length := by
    intro ns
    induction ns with
    | nil => rfl
    | cons n ns ih =>
      rw [weights_cons, ih, flatMap_cons, length_append, weight]
      push_cast
      omega
  rw [weight, subexpressions_eq, hbelow, length_cons]
  push_cast
  omega

theorem four_le_weight (n : Node) : 4 ≤ n.weight := by
  rw [weight, subexpressions_eq, length_cons]
  push_cast
  omega

theorem le_weights (ns : List Node) : 4 * (ns.length : Int) ≤ weights ns := by
  induction ns with
  | nil => exact Int.le_refl 0
  | cons n ns ih =>
    rw [weights_cons, length_cons]
    have hhead := n.four_le_weight
    push_cast
    omega

theorem weights_nonneg (ns : List Node) : 0 ≤ weights ns :=
  Int.le_trans (by omega) (le_weights ns)

/-- The code of an expression, with the gate, keeps its promise. -/
def Honours (Q : Node → Prop) (n : Node) : Prop := Raises Q n.weight n.effect (expression n n.emit)

/-- The code of an operand leaves its value on the stack. -/
def Pushes (Q : Node → Prop) (n : Node) : Prop := Raises Q n.weight 1 (expression n n.emit)

variable {keywords : List (Text × Node)} {args : List Node} {star doubleStar : Option Node}

theorem Honours.pushes (h : n.Honours Q) (heffect : n.effect = 1) : n.Pushes Q := by
  rw [Honours, heffect] at h
  exact h

theorem raises_emitAll {ns : List Node} (h : ∀ n ∈ ns, n.Pushes Q) :
    Raises Q (weights ns) ns.length (emitAll ns) := by
  induction ns with
  | nil =>
    intro floor d hands _ hfloor _
    rw [length_nil, Int.natCast_zero, Int.add_zero]
    exact settles_pure () hfloor
  | cons n ns ih =>
    obtain ⟨hn, hns⟩ := forall_mem_cons.mp h
    intro floor d hands hzero hfloor hroom
    rw [weights_cons] at hroom
    have hhead := n.four_le_weight
    have htail := weights_nonneg ns
    refine (hn.settles (d + 1) (by omega)).bind fun _ => (ih hns).settles _ ?_
    rw [length_cons]
    push_cast
    omega

/-- The code of a chain of comparisons leaves one value for the one it starts with. Where a
comparison fails, two are left. -/
theorem settles_emitLinks {links : List (CompareOp × Node)} (hlinks : links ≠ [])
    (h : ∀ n ∈ links.map Prod.snd, n.Pushes Q) (before rest : List (Label × Int)) (cleanup : Label)
    {known : Int} (hfits : 0 ≤ floor ∧ floor ≤ d ∧ d + 1 + weights (links.map Prod.snd) < 2 ^ 63 ∧
      (0 ≤ known → known = d + 2)) :
    Settles Q floor ⟨d + 1, true⟩ (before ++ (cleanup, known) :: rest) (emitLinks cleanup links)
      ⟨d + 1, true⟩
      fun _ => before ++ (cleanup, if links.length = 1 then known else d + 2) :: rest := by
  induction links generalizing known with
  | nil => exact absurd rfl hlinks
  | cons link links ih =>
    obtain ⟨op, n⟩ := link
    rw [map_cons, forall_mem_cons] at h
    rw [map_cons, weights_cons] at hfits
    dsimp only at hfits
    have hhead := n.four_le_weight
    have htail := weights_nonneg (links.map Prod.snd)
    have hoperand : ∀ hands, Settles Q floor ⟨d + 1, true⟩ hands (expression n n.emit) ⟨d + 2, true⟩
        fun _ => hands := fun hands => h.1.settles (d + 2) (by dsimp only; omega)
    cases links with
    | nil =>
      refine (hoperand _).bind fun _ => ?_
      exact settles_instr 2 (-1) (d + 1) rfl (by omega)
    | cons link links =>
      rw [emitLinks, emitLinksBy_cons]
      refine (hoperand _).bind fun _ => ?_
      refine (settles_instr 1 1 (d + 3) rfl (by omega)).bind fun _ => ?_
      refine (settles_instr 3 0 (d + 3) rfl (by omega)).bind fun _ => ?_
      refine (settles_instr 2 (-1) (d + 2) rfl (by omega)).bind fun _ => ?_
      refine (settles_jumpOrPop before rest cleanup (d + 1) ⟨rfl, rfl⟩ (by omega)).bind fun _ => ?_
      have hrest := @ih (cons_ne_nil _ _) h.2 (d + 2) (by omega)
      simpa using hrest

/-- The code of a short-circuit chain leaves one value, at its end and where it is left. -/
theorem settles_emitOperands {operands : List Node} (hoperands : operands ≠ [])
    (h : ∀ n ∈ operands, n.Pushes Q) (junction : Junction) (before rest : List (Label × Int))
    (done : Label) {known : Int} (hfits : 0 ≤ floor ∧ floor ≤ d ∧ d + weights operands < 2 ^ 63 ∧
      (0 ≤ known → known = d + 1)) :
    Settles Q floor ⟨d, true⟩ (before ++ (done, known) :: rest)
      (emitOperands junction done operands) ⟨d + 1, true⟩
      fun _ => before ++ (done, if operands.length = 1 then known else d + 1) :: rest := by
  induction operands generalizing known with
  | nil => exact absurd rfl hoperands
  | cons n operands ih =>
    obtain ⟨hn, hrest⟩ := forall_mem_cons.mp h
    rw [weights_cons] at hfits
    have hhead := n.four_le_weight
    have htail := weights_nonneg operands
    have hoperand : ∀ hands, Settles Q floor ⟨d, true⟩ hands (expression n n.emit) ⟨d + 1, true⟩
        fun _ => hands := fun hands => hn.settles (d + 1) (by omega)
    cases operands with
    | nil => exact hoperand _
    | cons m operands =>
      rw [emitOperands, emitOperandsBy_cons]
      have hleave : Settles Q floor ⟨d + 1, true⟩ (before ++ (done, known) :: rest)
          (leave junction done) ⟨d, true⟩ fun _ => before ++ (done, d + 1) :: rest := by
        cases junction with
        | and => exact settles_jumpOrPop before rest done d ⟨rfl, rfl⟩ (by omega)
        | or => exact settles_jumpOrPop before rest done d ⟨rfl, rfl⟩ (by omega)
      refine (hoperand _).bind fun _ => hleave.bind fun _ => ?_
      have hchain := @ih (cons_ne_nil _ _) hrest (d + 1) (by omega)
      simpa using hchain

/-- The code of steps keeps the promise of the last. -/
theorem raises_emitSteps (hsteps : steps ≠ []) (h : ∀ n ∈ steps, n.Honours Q) :
    Raises Q (weights steps) (lastEffect steps) (emitSteps steps) := by
  induction steps with
  | nil => exact absurd rfl hsteps
  | cons n steps ih =>
    obtain ⟨hn, hrest⟩ := forall_mem_cons.mp h
    intro floor d hands hzero hfloor hroom
    rw [weights_cons] at hroom
    have hhead := n.four_le_weight
    have htail := weights_nonneg steps
    have hstep : Settles Q floor ⟨d, true⟩ hands (expression n n.emit) ⟨d + n.effect, true⟩
        fun _ => hands := hn.settles _ (by omega)
    cases steps with
    | nil => exact hstep
    | cons m steps =>
      rw [emitSteps, emitStepsBy_cons, lastEffect_cons]
      refine hstep.bind fun _ => settles_get_bind fun c hc => ?_
      have hreachable : c.reachable = true := congrArg Standing.reachable hc
      rw [if_pos hreachable]
      -- The value of a step that has one is dropped.
      have hpop : Settles Q floor ⟨d + n.effect, true⟩ hands (popEffect n.effect) ⟨d, true⟩
          fun _ => hands := by
        rcases n.effect_eq with heffect | heffect <;> rw [heffect, popEffect]
        · rw [if_neg (by decide), Int.add_zero]
          exact settles_pure () hfloor
        · rw [if_pos (by decide)]
          exact settles_instr 1 (-1) d rfl (by omega)
      exact hpop.bind fun _ => (ih (cons_ne_nil _ _) hrest).settles _ (by omega)

theorem raises_emitBound {bound : Option Node} (h : ∀ n ∈ bound.toList, n.Pushes Q) :
    Raises Q (1 + weights bound.toList) 1 (emitBound bound) := by
  intro floor d hands hzero hfloor hroom
  cases bound with
  | none =>
    rw [Option.toList_none, weights_nil] at hroom
    change Settles Q floor ⟨d, true⟩ hands (append .loadNone 0 1) ⟨d + 1, true⟩ fun _ => hands
    exact settles_append (d + 1) rfl ⟨hzero, by simpa [reads] using hfloor, rfl, by omega⟩
  | some n =>
    rw [Option.toList_some, weights_cons, weights_nil] at hroom
    exact (h n mem_cons_self).settles _ (by omega)

/-- A starred argument is put into the list or the dictionary below it. -/
theorem settles_spread {star : Option Node} (h : ∀ n ∈ star.toList, n.Pushes Q) (op : Opcode)
    (hop : op = .listExtend ∨ op = .dictMerge) {x : Emit Unit}
    (hx : x = star.elim (pure ()) fun n => do
      expression n n.emit
      append op 0 (-1))
    (hfits : 0 ≤ floor ∧ floor + 1 ≤ d ∧ d + weights star.toList < 2 ^ 63) :
    Settles Q floor ⟨d, true⟩ hands x ⟨d, true⟩ fun _ => hands := by
  rw [hx]
  cases star with
  | none => exact settles_pure () (by dsimp only; omega)
  | some n =>
    rw [Option.toList_some, weights_cons, weights_nil] at hfits
    have hhead := n.four_le_weight
    refine ((h n mem_cons_self).settles (d + 1) (by omega)).bind fun _ => ?_
    rcases hop with rfl | rfl <;> exact settles_instr 2 (-1) d rfl (by omega)

theorem raises_emitKeywords (h : ∀ n ∈ keywords.map Prod.snd, n.Pushes Q) :
    Raises Q (1 + weights (keywords.map Prod.snd)) (2 * keywords.length)
      (emitKeywords keywords) := by
  induction keywords with
  | nil =>
    intro floor d hands _ hfloor _
    rw [length_nil, Int.natCast_zero, Int.mul_zero, Int.add_zero]
    exact settles_pure () hfloor
  | cons keyword keywords ih =>
    obtain ⟨name, n⟩ := keyword
    rw [map_cons, forall_mem_cons] at h
    intro floor d hands hzero hfloor hroom
    rw [map_cons, weights_cons] at hroom
    have hhead := n.four_le_weight
    have htail := weights_nonneg (keywords.map Prod.snd)
    dsimp only at hroom
    refine (settles_loadConst _ (d + 1) (by omega)).bind fun _ => ?_
    refine (h.1.settles (d + 2) (by dsimp only; omega)).bind fun _ => (ih h.2).settles _ ?_
    rw [length_cons]
    push_cast
    omega

/-- The code behind the callee leaves the result of the call for the callee, with its receiver, and
the arguments. -/
theorem settles_emitArguments (hargs : ∀ n ∈ args, n.Pushes Q)
    (hstar : ∀ n ∈ star.toList, n.Pushes Q) (hkeywords : ∀ n ∈ keywords.map Prod.snd, n.Pushes Q)
    (hdoubleStar : ∀ n ∈ doubleStar.toList, n.Pushes Q) (withReceiver : Bool)
    (hfits : 0 ≤ floor ∧ floor ≤ d ∧ d + 8 + weights args + weights star.toList +
      weights (keywords.map Prod.snd) + weights doubleStar.toList < 2 ^ 63) :
    Settles Q floor ⟨d + if withReceiver then 2 else 1, true⟩ hands
      (emitArguments args star keywords doubleStar withReceiver) ⟨d + 1, true⟩ fun _ => hands := by
  have hw1 := weights_nonneg args
  have hw2 := weights_nonneg star.toList
  have hw3 := weights_nonneg (keywords.map Prod.snd)
  have hw4 := weights_nonneg doubleStar.toList
  have hcount := le_weights args
  have hcount' := le_weights (keywords.map Prod.snd)
  rw [length_map] at hcount'
  obtain ⟨e, he, hlow, hhigh⟩ : ∃ e : Int, (d + if withReceiver then 2 else 1) = e ∧ d + 1 ≤ e ∧
      e ≤ d + 2 := by
    refine ⟨_, rfl, ?_⟩
    cases withReceiver <;> simp
  rw [he]
  refine ((raises_emitAll hargs).settles (e + args.length) (by omega)).bind fun _ => ?_
  split
  · -- Without stars and keywords the arguments lie on the stack.
    cases withReceiver with
    | false =>
      refine settles_append (d + 1) rfl ?_
      simp only [reads, change, Int.toNat_natCast, Bool.false_eq_true, if_false] at he ⊢
      omega
    | true =>
      refine settles_append (d + 1) rfl ?_
      simp only [reads, change, Int.toNat_natCast, if_true] at he ⊢
      omega
  · refine (settles_append (e + 1) rfl ?_).bind fun _ => ?_
    · simp only [reads, change, Int.toNat_natCast]
      omega
    refine (settles_spread hstar .listExtend (.inl rfl) (by cases star <;> rfl)
      (by omega)).bind fun _ => ?_
    refine ((raises_emitKeywords hkeywords).settles (e + 1 + 2 * keywords.length)
      (by omega)).bind fun _ => ?_
    refine (settles_append (e + 2) rfl ?_).bind fun _ => ?_
    · simp only [reads, change, Int.toNat_natCast]
      omega
    refine (settles_spread hdoubleStar .dictMerge (.inr rfl) (by cases doubleStar <;> rfl)
      (by omega)).bind fun _ => ?_
    cases withReceiver with
    | false => exact settles_append (d + 1) rfl (by simp [reads, change] at he ⊢; omega)
    | true => exact settles_append (d + 1) rfl (by simp [reads, change] at he ⊢; omega)

/-- The code of a call, if the code of its operands keeps their promises, and that of the receiver
of a method. -/
theorem raises_emit_call {callee : Node} {method : Bool}
    (h : ∀ m ∈ (Node.call callee args star keywords doubleStar method).children, m.Pushes Q)
    (hreceiver : ∀ base name, callee = .attr base name → base.Pushes Q) :
    Raises Q (Node.call callee args star keywords doubleStar method).weight 1
      (Node.call callee args star keywords doubleStar method).emit := by
  intro floor d hands hzero hfloor hroom
  rw [weight_eq] at hroom
  simp only [children, present_cons, present_nil, append_nil, cons_append, weights_cons,
    weights_append] at h hroom
  obtain ⟨hcallee, hrest⟩ := forall_mem_cons.mp h
  have hsupply : ∀ withReceiver : Bool, Settles Q floor ⟨d + if withReceiver then 2
      else 1, true⟩ hands
      (emitArguments args star keywords doubleStar withReceiver) ⟨d + 1, true⟩ fun _ => hands := by
    intro withReceiver
    have hw := callee.four_le_weight
    exact settles_emitArguments (fun m hm => hrest m (by simp [hm]))
      (fun m hm => hrest m (by simp [Option.mem_toList.mp hm]))
      (fun m hm => hrest m (mem_append_left _ (mem_append_right _ hm)))
      (fun m hm => hrest m (mem_append_right _ hm)) withReceiver (by omega)
  have hw := weights_nonneg args
  have hw1 := weights_nonneg star.toList
  have hw2 := weights_nonneg (keywords.map Prod.snd)
  have hw3 := weights_nonneg doubleStar.toList
  have hemit : (Node.call callee args star keywords doubleStar method).emit =
      emitCallee callee method >>= emitArguments args star keywords doubleStar := emitBy_call ..
  rw [hemit]
  -- A callee that is not looked up as a method is an operand like any other.
  have hplain : emitCallee callee method = (do expression callee callee.emit; pure false) →
      Settles Q floor ⟨d, true⟩ hands
        (emitCallee callee method >>= emitArguments args star keywords doubleStar)
        ⟨d + 1, true⟩ fun _ => hands := by
    intro hcallee'
    rw [hcallee', bind_assoc]
    refine (hcallee.settles (d + 1) (by omega)).bind fun _ => ?_
    rw [pure_bind]
    exact hsupply false
  cases callee with
  | attr base name =>
    cases method with
    | false => exact hplain rfl
    | true =>
      have hbase : base.Pushes Q := hreceiver base name rfl
      have hweight := weight_eq (.attr base name)
      rw [children, weights_cons, weights_nil] at hweight
      have hw4 := base.four_le_weight
      have hcallee' : emitCallee (.attr base name) true = (do
          expression base base.emit
          loadMethod name
          pure true) := rfl
      rw [hcallee', bind_assoc]
      refine (hbase.settles (d + 1) (by omega)).bind fun _ => ?_
      rw [bind_assoc]
      refine (settles_withConstant _ (d + 2) (fun _ => rfl) fun _ => ?_).bind fun _ => ?_
      · simp only [reads, change]
        omega
      · rw [pure_bind]
        exact hsupply true
  | _ => exact hplain (by cases method <;> rfl)

/-- The code of a chain of comparisons. -/
theorem raises_emit_compare {subject : Node} {links : List (CompareOp × Node)} (hlinks : links ≠ [])
    (h : ∀ m ∈ (Node.compare subject links).children, m.Pushes Q) :
    Raises Q (Node.compare subject links).weight 1 (Node.compare subject links).emit := by
  intro floor d hands hzero hfloor hroom
  rw [weight_eq, children, weights_cons] at hroom
  obtain ⟨hsubject, hoperands⟩ := forall_mem_cons.mp h
  have hw := weights_nonneg (links.map Prod.snd)
  have hw' := subject.four_le_weight
  by_cases hsingle : links.length = 1
  · obtain ⟨⟨op, n⟩, rfl⟩ := length_eq_one_iff.mp hsingle
    have hoperand : n.Pushes Q := hoperands n mem_cons_self
    rw [map_cons, map_nil, weights_cons, weights_nil] at hroom hw
    dsimp only at hroom hw
    rw [emit, emitBy_compare_single]
    refine (hsubject.settles (d + 1) (by omega)).bind fun _ => ?_
    refine (hoperand.settles (d + 2) (by omega)).bind fun _ => ?_
    exact settles_instr 2 (-1) (d + 1) rfl (by omega)
  · rw [emit, emitBy_compare_chain _ _ hsingle]
    refine (hsubject.settles (d + 1) (by omega)).bind fun _ => ?_
    refine settles_newLabel (by dsimp only; omega) fun cleanup =>
      settles_newLabel (by dsimp only; omega) fun done => ?_
    refine (settles_emitLinks hlinks hoperands [(done, -1)] hands cleanup
      (by omega)).bind fun _ => ?_
    rw [if_neg hsingle]
    refine (settles_jump [] ((cleanup, d + 2) :: hands) done (by omega)).bind fun _ => ?_
    -- Where a comparison failed, its operand lies below the result.
    refine (settles_mark [(done, d + 1)] hands cleanup (d + 2) (by simp; omega)).bind fun _ => ?_
    refine (settles_instr 2 0 (d + 2) rfl (by omega)).bind fun _ => ?_
    refine (settles_instr 1 (-1) (d + 1) rfl (by omega)).bind fun _ => ?_
    exact settles_mark [] hands done (d + 1) (by simp; omega)

theorem raises_emit_logical {junction : Junction} {operands : List Node} (hoperands : operands ≠ [])
    (h : ∀ m ∈ operands, m.Pushes Q) :
    Raises Q (Node.logical junction operands).weight 1 (Node.logical junction operands).emit := by
  intro floor d hands hzero hfloor hroom
  rw [weight_eq, children] at hroom
  rw [emit, emitBy]
  refine settles_newLabel hfloor fun done => ?_
  refine (settles_emitOperands hoperands h junction [] hands done (by omega)).bind fun _ => ?_
  refine settles_mark [] hands done (d + 1) ⟨hzero, by omega, by omega, ?_⟩
  rw [if_pos rfl]
  refine ⟨rfl, ?_⟩
  split <;> omega

theorem raises_emit_cond {test yes no : Node} (h : ∀ m ∈ [test, yes, no], m.Pushes Q) :
    Raises Q (Node.cond test yes no).weight 1 (Node.cond test yes no).emit := by
  intro floor d hands hzero hfloor hroom
  rw [weight_eq, children, weights_cons, weights_cons, weights_cons, weights_nil] at hroom
  have hw := test.four_le_weight
  have hw1 := yes.four_le_weight
  have hw2 := no.four_le_weight
  rw [emit, emitBy]
  refine settles_newLabel hfloor fun otherwise => settles_newLabel hfloor fun done => ?_
  refine ((h test (by simp)).settles (d + 1) (by omega)).bind fun _ => ?_
  refine (settles_popJump [(done, -1)] hands otherwise d ⟨rfl, rfl⟩ (by omega)).bind fun _ => ?_
  refine ((h yes (by simp)).settles (d + 1) (by omega)).bind fun _ => ?_
  refine (settles_jump [] ((otherwise, d) :: hands) done (by omega)).bind fun _ => ?_
  refine (settles_mark [(done, d + 1)] hands otherwise d (by simp; omega)).bind fun _ => ?_
  refine ((h no (by simp)).settles (d + 1) (by omega)).bind fun _ => ?_
  exact settles_mark [] hands done (d + 1) (by simp; omega)

/-- The bounds of a slice go to the stack, those that are left out as `none`, and are put together.
-/
theorem settles_emitBounds {start stop step : Option Node}
    (h : ∀ m ∈ present [start, stop, step], m.Pushes Q)
    (hfits : 0 ≤ floor ∧ floor ≤ d ∧ d + 4 + weights (present [start, stop, step]) < 2 ^ 63) :
    Settles Q floor ⟨d, true⟩ hands (do
      emitBound start
      emitBound stop
      emitBound step
      buildSlice) ⟨d + 1, true⟩ fun _ => hands := by
  simp only [present_cons, present_nil, append_nil, weights_append] at h hfits
  have hw := weights_nonneg start.toList
  have hw1 := weights_nonneg stop.toList
  have hw2 := weights_nonneg step.toList
  have hstart := raises_emitBound fun m hm => h m (mem_append_left _ hm)
  have hstop := raises_emitBound fun m hm => h m (mem_append_right _ (mem_append_left _ hm))
  have hstep := raises_emitBound fun m hm => h m (mem_append_right _ (mem_append_right _ hm))
  refine (hstart.settles (d + 1) (by omega)).bind fun _ => ?_
  refine (hstop.settles (d + 2) (by omega)).bind fun _ => ?_
  refine (hstep.settles (d + 3) (by omega)).bind fun _ => ?_
  exact settles_instr 3 (-2) (d + 1) rfl (by omega)

theorem raises_emit_collection {kind : CollectionKind} {elements : List Node}
    (hbuilt : (Node.collection kind elements).Built) (h : ∀ m ∈ elements, m.Pushes Q) :
    Raises Q (Node.collection kind elements).weight 1 (Node.collection kind elements).emit := by
  intro floor d hands hzero hfloor hroom
  rw [weight_eq, children] at hroom
  have hcount := le_weights elements
  have hall : Settles Q floor ⟨d, true⟩ hands (emitAll elements) ⟨d + elements.length, true⟩
      fun _ => hands := (raises_emitAll h).settles _ (by omega)
  cases kind with
  | list | tuple =>
    refine hall.bind fun _ => settles_append (d + 1) rfl ?_
    simp only [reads, change, Int.toNat_natCast]
    omega
  | dict =>
    -- Keys and values come in pairs.
    have hpairs : elements.length % 2 = 0 := hbuilt
    refine hall.bind fun _ => settles_append (d + 1) rfl ?_
    simp only [reads, change, Int.toNat_natCast]
    omega

/-- What is required of an expression so that its code keeps its promise, its operands apart: it is
built, its operands have values unless it is made of steps, and it does not go on with another pair.
-/
structure Orderly (n : Node) : Prop where
  built : n.Built
  valued : n.Valued
  straight : n.isNext = false

/-- The code of an expression keeps its promise if the code of its operands does. -/
theorem raises_emit (hn : n.Orderly) (h : ∀ m ∈ n.children, m.Honours Q)
    (hreceiver : ∀ base name, Node.attr base name ∈ n.children → base.Pushes Q) :
    Raises Q n.weight n.effect n.emit := by
  have hpushes : n.isSequence = false → ∀ m ∈ n.children, m.Pushes Q := fun hsequence m hm =>
    (h m hm).pushes (hn.valued hsequence m hm)
  have hweight := weight_eq n
  cases n with
  | sequence steps =>
    intro floor d hands hzero hfloor hroom
    rw [children] at hweight
    exact (raises_emitSteps hn.built h).settles _ ⟨hzero, hfloor, by omega, rfl⟩
  | next pair => cases hn.straight
  | compare subject links => exact raises_emit_compare hn.built (hpushes rfl)
  | logical junction operands => exact raises_emit_logical hn.built (hpushes rfl)
  | cond test yes no => exact raises_emit_cond (hpushes rfl)
  | collection kind elements => exact raises_emit_collection hn.built (hpushes rfl)
  | call callee args star keywords doubleStar method =>
    refine raises_emit_call (hpushes rfl) fun base name hattr => hreceiver base name ?_
    rw [← hattr]
    exact mem_cons_self
  | const v signature =>
    intro floor d hands hzero hfloor hroom
    rw [children, weights_nil] at hweight
    exact settles_loadConst v (d + 1) (by omega)
  | var name =>
    intro floor d hands hzero hfloor hroom
    rw [children, weights_nil] at hweight
    exact settles_loadName name (d + 1) (by omega)
  | unary op operand =>
    intro floor d hands hzero hfloor hroom
    simp only [children, weights_cons, weights_nil] at hweight
    have hw := operand.four_le_weight
    refine ((hpushes rfl operand (by simp)).settles (d + 1) (by omega)).bind fun _ => ?_
    exact settles_instr 1 0 (d + 1) rfl (by omega)
  | binary op left right | subscript left right =>
    intro floor d hands hzero hfloor hroom
    simp only [children, weights_cons, weights_nil] at hweight
    have hw := left.four_le_weight
    have hw' := right.four_le_weight
    refine ((hpushes rfl left (by simp)).settles (d + 1) (by omega)).bind fun _ => ?_
    refine ((hpushes rfl right (by simp)).settles (d + 2) (by omega)).bind fun _ => ?_
    exact settles_instr 2 (-1) (d + 1) rfl (by omega)
  | sliceObj start stop step =>
    intro floor d hands hzero hfloor hroom
    rw [children] at hweight
    exact settles_emitBounds (hpushes rfl) (by omega)
  | slice base start stop step =>
    intro floor d hands hzero hfloor hroom
    rw [children, weights_cons] at hweight
    have hw := base.four_le_weight
    have hw' := weights_nonneg (present [start, stop, step])
    obtain ⟨hbase, hbounds⟩ := forall_mem_cons.mp (hpushes rfl)
    have hemit : (Node.slice base start stop step).emit = expression base base.emit >>= fun _ =>
        (do
          emitBound start
          emitBound stop
          emitBound step
          buildSlice) >>= fun _ => getIndex := by
      simp only [emitBy, bind_assoc]
    rw [hemit]
    refine (hbase.settles (d + 1) (by omega)).bind fun _ => ?_
    have hindex : Settles Q floor ⟨d + 1, true⟩ hands _ ⟨d + 1 + 1, true⟩ fun _ => hands :=
      settles_emitBounds hbounds (by omega)
    refine hindex.bind fun _ => ?_
    exact settles_instr 2 (-1) (d + 1) rfl (by omega)
  | attr base name =>
    intro floor d hands hzero hfloor hroom
    simp only [children, weights_cons, weights_nil] at hweight
    have hw := base.four_le_weight
    refine ((hpushes rfl base (by simp)).settles (d + 1) (by omega)).bind fun _ => ?_
    refine settles_withConstant _ (d + 1) (fun _ => rfl) fun _ => ?_
    simp only [reads, change]
    omega
  | store name value =>
    intro floor d hands hzero hfloor hroom
    simp only [children, weights_cons, weights_nil] at hweight
    have hw := value.four_le_weight
    rw [effect, Int.add_zero]
    refine ((hpushes rfl value (by simp)).settles (d + 1) (by omega)).bind fun _ => ?_
    exact settles_storeName name d (by omega)

/-- The code of an expression keeps its promise. -/
theorem honours (n : Node) : n.Everywhere Orderly → n.Everywhere Q → n.Honours Q := by
  induction n using descent with
  | h n ih ihbelow =>
    intro horderly hmembers
    obtain ⟨hn, hbelow⟩ := everywhere_iff.mp horderly
    obtain ⟨hmember, hmembers⟩ := everywhere_iff.mp hmembers
    refine Raises.expression hmember n.four_le_weight (raises_emit hn
      (fun m hm => ih m hm (hbelow m hm) (hmembers m hm)) fun base name hattr => ?_)
    -- The receiver of a method is emitted in place of the attribute.
    obtain ⟨hcallee, hreceiver⟩ := everywhere_iff.mp (hbelow _ hattr)
    have hbase := ihbelow _ hattr base mem_cons_self (hreceiver base mem_cons_self)
      ((everywhere_iff.mp (hmembers _ hattr)).2 base mem_cons_self)
    exact hbase.pushes (hcallee.valued rfl base mem_cons_self)

/-- A tuple of steps that end with an assignment. -/
def hollowTuple : Node :=
  .collection .tuple [.sequence [.const (.int 1) "int:1", .store "x" (.const (.int 1) "int:1")]]

end Node

namespace Emit

/-- An expression whose operands have values keeps its stack contract in every buffer with room for
its constants, whatever its cache marks: its emission succeeds and raises the stack by what the
expression promises, the height never falls below where it started, no instruction takes an operand
from below that, and the prologue starts and ends with an empty stack. -/
theorem emitInto_keeps_contract {Q : Node → Prop} {n : Node} (horderly : n.Everywhere Node.Orderly)
    (hmembers : n.Everywhere Q) {c : Code} (hhosts : c.Hosts Q) (hreachable : c.reachable = true)
    (houtside : c.inPrologue = false) (hdepth : 0 ≤ c.depth)
    (hroom : c.depth + 4 * n.subexpressions.length < 2 ^ 63) (marks : Marks)
    (hpool : (n.emitInto marks c : Except Failure Unit × Code).2.chunk.constants.size ≤ 65536) :
    ∃ c', n.emitInto.Yields marks c () c' ∧ c'.reachable = true ∧ c'.inPrologue = false ∧
      c'.depth = c.depth + n.effect ∧ c.Stays c.depth c' := by
  have hhanded : c.Handed Q ⟨c.depth, true⟩ [] :=
    ⟨houtside, by rw [Code.standing, hreachable], fun _ _ hmem => absurd hmem not_mem_nil,
      nodup_nil, hhosts⟩
  have hsettles :=
    n.honours horderly hmembers c.depth c.depth [] hdepth (Int.le_refl _) hroom marks c hhanded
  obtain ⟨_, c', hyields, hhanded', hstays, -⟩ := hsettles.resolve_right fun hfull =>
    hfull.not_le hpool
  exact ⟨c', hyields, hhanded'.reachable, hhanded'.outside, hhanded'.depth, hstays⟩

/-- The sum of a name and one, in a buffer with three values on its stack and a cache that marks
everything. -/
theorem emitInto_keeps_contract_successor :
    let c : Code := { Code.create "f" ["\""] with interceptor := some (.cache 0), depth := 3 }
    Node.successor.Everywhere Node.Orderly ∧
    c.Hosts (Request.Mentions [.expression Node.successor]) ∧
      ∃ c', Node.successor.emitInto.Yields (fun _ _ => true) c () c' ∧ c'.depth = 4 ∧
      c.Stays 3 c' := by
  intro c
  have horderly : Node.successor.Everywhere Node.Orderly := by
    intro m hm
    simp only [Node.successor, Node.subexpressions_eq, Node.children, flatMap_cons, flatMap_nil,
      append_nil, cons_append, nil_append, mem_cons, not_mem_nil, or_false] at hm
    rcases hm with rfl | rfl | rfl <;> exact ⟨by decide, by decide, rfl⟩
  have hmembers : Node.successor.Everywhere (Request.Mentions [.expression Node.successor]) :=
    fun m hm => ⟨Node.successor, mem_cons_self, hm⟩
  have hhosts : c.Hosts (Request.Mentions [.expression Node.successor]) := by
    intro first hfirst
    refine ⟨Node.canonical_successor _ (by simp), 0, (Option.some.inj hfirst).symm, ?_, ?_⟩
    · exact fun r hr => absurd hr.symm (Option.some_ne_none r)
    · exact fun _ v hv => absurd hv.symm (Option.some_ne_none _)
  obtain ⟨c', hyields, -, -, hdepth, hstays⟩ :=
    emitInto_keeps_contract horderly hmembers hhosts rfl rfl
    (by decide) (by decide) (fun _ _ => true) (by decide +kernel)
  exact ⟨horderly, hhosts, c', hyields, hdepth, hstays⟩

/-- The code that broke a promise, with the change of the height and what was promised. -/
def brokenPromise? : Except Failure Unit → Option (Text × Int × Int)
  | .error (.compile (.code name (.stackEffect _ net promised))) => some (name, net, promised)
  | _ => none

theorem exists_of_brokenPromise? {result : Except Failure Unit} {name : Text} {net promised : Int}
    (h : brokenPromise? result = some (name, net, promised)) :
    ∃ signature, result = .error (.compile (.code name (.stackEffect signature net promised))) := by
  unfold brokenPromise? at h
  split at h <;> cases h
  exact ⟨_, rfl⟩

/-- The contract is broken in two ways although assignments are steps only. An operand that has no
value makes the emission fail, and behind the largest height the height is negative. -/
theorem emitInto_breaks_contract :
    (Node.hollowTuple.Everywhere Node.StoresAreSteps ∧ Node.hollowTuple.Everywhere Node.Built ∧
      (Code.create "f" ["x"]).Hosts (fun _ => True) ∧
      ∃ signature, (Node.hollowTuple.emitInto (fun _ _ => false) (Code.create "f" ["x"]) :
        Except Failure Unit × Code).1 = .error
          (.compile (.code "f" (.stackEffect signature 0 1)))) ∧
    ∃ c', (Node.var "x").emitInto.Yields (fun _ _ => false)
      { Code.create "f" ["x"] with depth := 2 ^ 63 - 1 } () c' ∧ c'.depth = -(2 ^ 63) := by
  refine ⟨⟨by decide, by decide, fun first hfirst => absurd hfirst.symm (Option.some_ne_none first),
    exists_of_brokenPromise? (by decide +kernel)⟩, _, by unfold Yields; cbv, by cbv⟩

end Emit

end ExprBackend
