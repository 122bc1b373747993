import ExprBackend.Cache.Analysis
import ExprBackend.Proofs.Occurrences
import ExprBackend.Proofs.Signature

/-! # What the analysis marks

The analysis of a cache learns from what an observer is told of the emission of trees.
What it has learned is described by the observations alone: which signatures were
seen, whether each of them always had one value, under which parents, and how often
under one parent in one tree. A signature tells of which kind an expression is and
how many values it has, so that looking at one of its occurrences is as good as
looking at all.

So the marked signatures are those of the expressions that occur under two parents,
or twice under one parent in one tree. They depend on the set of the trees that were
analysed, and neither on the order of the trees nor on how they were grouped.
-/

namespace ExprBackend

open List Node HashedText Cache

/-! ## Keyed lists -/

variable {c : Cache} {e : Edge} {h : Heap} {limit : Nat} {m root : Node} {more roots : List Node}
  {o : Observation} {s : Text} {seen : List Observation} {x : Sighting}

section Amend

variable {α κ : Type} [DecidableEq κ] {key : α → κ} {k : κ} {new : α} {f : α → α} {l : List α}

/-- Changes the entry with a key, or adds one. -/
def amend (key : α → κ) (k : κ) (new : α) (f : α → α) : List α → List α
  | [] => [new]
  | a :: rest => if key a = k then f a :: rest else a :: amend key k new f rest

theorem keys_amend (hnew : key new = k) (hf : ∀ a, key (f a) = key a) :
    (amend key k new f l).map key = if k ∈ l.map key then l.map key else l.map key ++ [k] := by
  induction l with
  | nil => simp [amend, hnew]
  | cons a rest ih =>
    rw [amend]
    by_cases ha : key a = k
    · simp [ha, hf]
    · rw [if_neg ha, map_cons, ih]
      have hne : k ≠ key a := fun h => ha h.symm
      by_cases hmem : k ∈ rest.map key
      · rw [if_pos hmem, if_pos (by simpa [hne] using hmem), map_cons]
      · rw [if_neg hmem, if_neg (by simpa [hne] using hmem), map_cons, cons_append]

theorem nodup_amend (hnew : key new = k) (hf : ∀ a, key (f a) = key a)
    (hnodup : (l.map key).Nodup) : ((amend key k new f l).map key).Nodup := by
  rw [keys_amend hnew hf]
  split
  next => exact hnodup
  next hmem => exact nodup_append.mpr ⟨hnodup, nodup_singleton k, by
      rintro a ha b hb rfl
      exact hmem (mem_singleton.mp hb ▸ ha)⟩

/-- The entries with other keys stay, and there is one entry with the key: what was there, changed,
or a new one. -/
theorem mem_amend (hnodup : (l.map key).Nodup) {b : α} :
    b ∈ amend key k new f l ↔
      (b ∈ l ∧ key b ≠ k) ∨ (∃ a ∈ l, key a = k ∧ b = f a) ∨ (k ∉ l.map key ∧ b = new) := by
  induction l with
  | nil => simp [amend]
  | cons a rest ih =>
    rw [map_cons, nodup_cons] at hnodup
    rw [amend]
    by_cases ha : key a = k
    · have hrest : ∀ b ∈ rest, key b ≠ k := fun b hb hkey =>
        hnodup.1 (ha.trans hkey.symm ▸ mem_map_of_mem hb)
      rw [if_pos ha]
      constructor
      · intro hb
        rcases mem_cons.mp hb with rfl | hb
        · exact .inr (.inl ⟨a, mem_cons_self, ha, rfl⟩)
        · exact .inl ⟨mem_cons_of_mem _ hb, hrest b hb⟩
      · rintro (⟨hb, hkey⟩ | ⟨a', ha', hkey, rfl⟩ | ⟨hnone, -⟩)
        · rcases mem_cons.mp hb with rfl | hb
          · exact absurd ha hkey
          · exact mem_cons_of_mem _ hb
        · rcases mem_cons.mp ha' with rfl | ha'
          · exact mem_cons_self
          · exact absurd hkey (hrest a' ha')
        · exact absurd (by simp [ha]) hnone
    · rw [if_neg ha, mem_cons, ih hnodup.2]
      have hne : k ≠ key a := fun h => ha h.symm
      constructor
      · rintro (rfl | ⟨hb, hkey⟩ | ⟨a', ha', hkey, rfl⟩ | ⟨hnone, rfl⟩)
        · exact .inl ⟨mem_cons_self, ha⟩
        · exact .inl ⟨mem_cons_of_mem _ hb, hkey⟩
        · exact .inr (.inl ⟨a', mem_cons_of_mem _ ha', hkey, rfl⟩)
        · exact .inr (.inr ⟨by simpa [hne] using hnone, rfl⟩)
      · rintro (⟨hb, hkey⟩ | ⟨a', ha', hkey, rfl⟩ | ⟨hnone, rfl⟩)
        · rcases mem_cons.mp hb with rfl | hb
          · exact .inl rfl
          · exact .inr (.inl ⟨hb, hkey⟩)
        · rcases mem_cons.mp ha' with rfl | ha'
          · exact absurd hkey ha
          · exact .inr (.inr (.inl ⟨a', ha', hkey, rfl⟩))
        · exact .inr (.inr (.inr ⟨fun h => hnone (mem_cons_of_mem _ h), rfl⟩))

end Amend

theorem see_eq (signature : HashedText) (good : Bool) (parent : Option HashedText)
    (l : List Sighting) : see signature good parent l =
      amend Sighting.signature signature (Sighting.add ⟨signature, true, []⟩ good parent)
        (·.add good parent) l := by
  induction l with
  | nil => rfl
  | cons x rest ih => rw [see, amend, ih]

theorem countEdge_eq (e : Edge) (l : List (Edge × Nat)) :
    countEdge e l = amend Prod.fst e (e, 1) (fun entry => (entry.1, entry.2 + 1)) l := by
  induction l with
  | nil => rfl
  | cons x rest ih => rw [countEdge, amend, ih]

/-- A count is large after another was raised if it was before, or is the one that was raised. -/
theorem mem_raiseEdge {e' : Edge} {n : Nat} {l : List (Edge × Nat)} :
    (∃ m, (e, m) ∈ raiseEdge e' n l ∧ limit ≤ m) ↔
      (∃ m, (e, m) ∈ l ∧ limit ≤ m) ∨ e = e' ∧ limit ≤ n := by
  induction l with
  | nil => simp [raiseEdge]
  | cons entry rest ih =>
    obtain ⟨e0, m0⟩ := entry
    simp only [raiseEdge]
    split
    next heq =>
      subst heq
      simp only [mem_cons, Prod.mk.injEq, or_and_right, exists_or, and_assoc]
      constructor
      · rintro (⟨m, rfl, rfl, hle⟩ | hrest)
        · rcases le_max_iff.mp hle with hle | hle
          · exact .inl (.inl ⟨m0, rfl, rfl, hle⟩)
          · exact .inr ⟨rfl, hle⟩
        · exact .inl (.inr hrest)
      · rintro ((⟨m, rfl, rfl, hle⟩ | hrest) | ⟨rfl, hle⟩)
        · exact .inl ⟨_, rfl, rfl, le_max_of_le_left hle⟩
        · exact .inr hrest
        · exact .inl ⟨_, rfl, rfl, le_max_of_le_right hle⟩
    next =>
      simp only [mem_cons, or_and_right, exists_or, ih, or_assoc]

/-! ## What observations tell -/

namespace Observation

/-- The signature of the parent. -/
def under (o : Observation) : Option HashedText := o.parent.map Thunk.get

/-- The observation is of an expression with a signature that is not a constant or a name. -/
def about (s : HashedText) (o : Observation) : Bool :=
  !o.child.isTerminal && ofText o.child.signature == s

/-- The expression was seen to leave one value. -/
def good (o : Observation) : Bool := o.net == 1 && o.reachable && o.child.effect == 1

/-- The observation is of an operand, by the signatures. -/
def along (e : Edge) (o : Observation) : Bool := o.about e.child && o.under == some e.parent

theorem about_iff {s : HashedText} :
    o.about s = true ↔ o.child.isTerminal = false ∧ ofText o.child.signature = s := by
  simp [about]

theorem along_iff : o.along e = true ↔ o.about e.child = true ∧ o.under = some e.parent := by
  simp [along]

end Observation

/-- What is kept of a signature is what observations tell. -/
structure Sighting.Sums (x : Sighting) (seen : List Observation) : Prop where
  eligible : x.eligible = true ↔ ∀ o ∈ seen, o.about x.signature = true → o.good = true
  distinct : x.parents.Nodup
  parents : ∀ p, p ∈ x.parents ↔ ∃ o ∈ seen, o.about x.signature = true ∧ o.under = some p

namespace Sighting

@[simp] theorem signature_add (x : Sighting) (good : Bool) (parent : Option HashedText) :
    (x.add good parent).signature = x.signature := rfl

theorem Sums.skip (h : x.Sums seen) (ho : o.about x.signature = false) : x.Sums (seen ++ [o]) := by
  refine ⟨h.eligible.trans ?_, h.distinct, fun p => (h.parents p).trans ?_⟩
  · simp [ho, or_imp, forall_and]
  · simp [ho, or_and_right, exists_or]

theorem Sums.add (h : x.Sums seen) (ho : o.about x.signature = true) :
    (x.add o.good o.under).Sums (seen ++ [o]) := by
  refine ⟨?_, ?_, fun p => ?_⟩
  · simp only [Sighting.add, Bool.and_eq_true, h.eligible, mem_append, mem_singleton, or_imp,
      forall_and, forall_eq, ho, forall_const]
    exact and_comm
  · unfold Sighting.add
    cases o.under with
    | none => exact h.distinct
    | some q =>
      dsimp only
      split
      next => exact h.distinct
      next hq => exact nodup_cons.mpr ⟨by simpa using hq, h.distinct⟩
  · simp only [signature_add, mem_append, mem_singleton, or_and_right, exists_or,
      exists_eq_left, ho, true_and]
    rw [← h.parents]
    unfold Sighting.add
    cases o.under with
    | none => simp
    | some q =>
      dsimp only
      split
      next hq =>
        have hmem : q ∈ x.parents := by simpa using hq
        refine ⟨.inl, ?_⟩
        rintro (hp | hp)
        · exact hp
        · exact Option.some.inj hp ▸ hmem
      next => simp [or_comm, eq_comm]

theorem sums_new {s : HashedText} (h : ∀ o ∈ seen, o.about s = false) :
    (⟨s, true, []⟩ : Sighting).Sums seen := by
  refine ⟨by simpa using fun o ho => by simp [h o ho], nodup_nil, fun p => ?_⟩
  simpa using fun o ho => by simp [h o ho]

end Sighting

/-- What is kept of all signatures is what observations tell. -/
structure Cache.Knows (c : Cache) (seen : List Observation) : Prop where
  distinct : (c.sightings.map Sighting.signature).Nodup
  sums : ∀ x ∈ c.sightings, x.Sums seen
  noticed : ∀ s, s ∈ c.sightings.map Sighting.signature ↔ ∃ o ∈ seen, o.about s = true

/-- The edges are counted as often as they were observed. -/
structure Counted (counts : List (Edge × Nat)) (seen : List Observation) : Prop where
  distinct : (counts.map Prod.fst).Nodup
  counted : ∀ e n, (e, n) ∈ counts ↔ 0 < n ∧ seen.countP (·.along e) = n

section Learn

variable {counts : List (Edge × Nat)} {told : List Observation}

theorem Cache.learn_of_isTerminal (h : o.child.isTerminal = true) (c : Cache)
    (counts : List (Edge × Nat)) : c.learn counts o = (c, counts) :=
  if_pos h

theorem Cache.learn_eq (h : o.child.isTerminal = false) (c : Cache) (counts : List (Edge × Nat)) :
    c.learn counts o =
      ({ c with sightings := see (.ofText o.child.signature) o.good o.under c.sightings },
        match o.under with
        | none => counts
        | some p => countEdge ⟨p, .ofText o.child.signature⟩ counts) := by
  rw [learn, if_neg (by simp [h])]
  rfl

theorem Cache.Knows.learn (h : c.Knows seen) (counts : List (Edge × Nat)) (o : Observation) :
    (c.learn counts o).1.Knows (seen ++ [o]) := by
  cases hterminal : o.child.isTerminal with
  | true =>
    have hskip : ∀ s, o.about s = false := fun s => by simp [Observation.about, hterminal]
    rw [learn_of_isTerminal hterminal]
    refine ⟨h.distinct, fun x hx => (h.sums x hx).skip (hskip _), fun s => (h.noticed s).trans ?_⟩
    simp [hskip, or_and_right, exists_or]
  | false =>
    have habout : ∀ s, o.about s = true ↔ ofText o.child.signature = s := fun s => by
      simp [Observation.about, hterminal]
    rw [learn_eq hterminal, see_eq]
    refine ⟨nodup_amend rfl (fun _ => rfl) h.distinct, fun x hx => ?_, fun s => ?_⟩
    · rcases (mem_amend h.distinct).mp hx with ⟨hx, hother⟩ | ⟨y, hy, hsame, rfl⟩ | ⟨hnone, rfl⟩
      · exact (h.sums x hx).skip (Bool.eq_false_iff.mpr fun ho => hother ((habout _).mp ho).symm)
      · exact (h.sums y hy).add ((habout _).mpr hsame.symm)
      · apply Sighting.Sums.add
        · refine Sighting.sums_new fun o' ho' => Bool.eq_false_iff.mpr fun habout' => hnone ?_
          exact (h.noticed _).mpr ⟨o', ho', habout'⟩
        · exact (habout _).mpr rfl
    · dsimp only
      rw [keys_amend (by rfl) (by exact fun _ => rfl)]
      simp only [mem_append, mem_singleton, or_and_right, exists_or, exists_eq_left, habout,
        ← h.noticed]
      split
      next hmem => exact ⟨.inl, fun hs => hs.elim id fun hs => hs ▸ hmem⟩
      next => simp [eq_comm]

/-- One more is counted along an edge. -/
theorem Counted.countEdge (h : Counted counts told) {e0 : Edge}
    (ho : ∀ e, o.along e = true ↔ e = e0) : Counted (countEdge e0 counts) (told ++ [o]) := by
  rw [countEdge_eq]
  refine ⟨nodup_amend rfl (fun _ => rfl) h.distinct, fun e n => ?_⟩
  rw [mem_amend h.distinct, countP_append, countP_singleton]
  by_cases he : e = e0
  · subst he
    rw [if_pos ((ho e).mpr rfl)]
    constructor
    · rintro (⟨-, hne⟩ | ⟨⟨e', m⟩, hmem, rfl, heq⟩ | ⟨hnone, heq⟩)
      · exact absurd rfl hne
      · rw [((h.counted _ m).mp hmem).2, (Prod.mk.inj heq).2]
        exact ⟨Nat.succ_pos m, rfl⟩
      · have hzero : told.countP (·.along e) = 0 := by
          by_contra hpos
          exact hnone (mem_map.mpr ⟨_, (h.counted _ _).mpr ⟨Nat.pos_of_ne_zero hpos, rfl⟩, rfl⟩)
        rw [hzero, (Prod.mk.inj heq).2]
        exact ⟨Nat.one_pos, rfl⟩
    · rintro ⟨-, rfl⟩
      by_cases hzero : told.countP (·.along e) = 0
      · refine .inr (.inr ⟨fun hkey => ?_, by rw [hzero]⟩)
        obtain ⟨⟨e', m⟩, hmem, rfl⟩ := mem_map.mp hkey
        obtain ⟨hpos, hcount⟩ := (h.counted _ m).mp hmem
        exact hpos.ne' (hcount.symm.trans hzero)
      · exact .inr (.inl ⟨_, (h.counted _ _).mpr ⟨Nat.pos_of_ne_zero hzero, rfl⟩, rfl, rfl⟩)
  · rw [if_neg fun halong => he ((ho e).mp halong), Nat.add_zero, ← h.counted]
    constructor
    · rintro (⟨hmem, -⟩ | ⟨⟨e', m⟩, -, rfl, heq⟩ | ⟨-, heq⟩)
      · exact hmem
      · exact absurd (Prod.mk.inj heq).1 he
      · exact absurd (Prod.mk.inj heq).1 he
    · exact fun hmem => .inl ⟨hmem, he⟩

theorem Counted.learn (h : Counted counts told) (c : Cache) (o : Observation) :
    Counted (c.learn counts o).2 (told ++ [o]) := by
  -- Nothing is counted for an observation along no edge.
  have hskip : (∀ e, o.along e = false) → Counted counts (told ++ [o]) := fun hnone =>
    ⟨h.distinct, fun e n => by simp [h.counted, countP_append, hnone]⟩
  cases hterminal : o.child.isTerminal with
  | true =>
    rw [learn_of_isTerminal hterminal]
    exact hskip fun e => by simp [Observation.along, Observation.about, hterminal]
  | false =>
    rw [learn_eq hterminal]
    cases hunder : o.under with
    | none => exact hskip fun e => by simp [Observation.along, hunder]
    | some p =>
      refine h.countEdge fun e => ?_
      rw [Observation.along_iff, Observation.about_iff, hunder]
      constructor
      · rintro ⟨⟨-, hchild⟩, hparent⟩
        rw [hchild, Option.some.inj hparent]
      · rintro rfl
        exact ⟨⟨hterminal, rfl⟩, rfl⟩

/-- The observations of a tree are learned one after the other. The counts are those of the tree
alone. -/
theorem Cache.Knows.learnAll (h : c.Knows seen) (observations : List Observation) :
    (c.learnAll observations).1.Knows (seen ++ observations) ∧
      Counted (c.learnAll observations).2 observations := by
  induction observations using reverseRecOn with
  | nil =>
    rw [append_nil]
    refine ⟨h, nodup_nil, fun e n => ?_⟩
    rw [countP_nil]
    exact ⟨fun hmem => absurd hmem not_mem_nil, fun ⟨hpos, hzero⟩ => absurd hzero hpos.ne⟩
  | append_singleton observations o ih =>
    rw [Cache.learnAll, foldl_append, ← append_assoc]
    exact ⟨ih.1.learn _ o, ih.2.learn _ o⟩

/-- Learning leaves the marks and the counts of earlier trees alone. -/
theorem Cache.learnAll_rest (c : Cache) (observations : List Observation) :
    (c.learnAll observations).1.counts = c.counts ∧
    (c.learnAll observations).1.marked = c.marked := by
  induction observations using reverseRecOn with
  | nil => exact ⟨rfl, rfl⟩
  | append_singleton observations o ih =>
    have hstep : ∀ (c : Cache) counts, (c.learn counts o).1.counts = c.counts ∧
        (c.learn counts o).1.marked = c.marked := by
      intro c counts
      unfold learn
      split <;> exact ⟨rfl, rfl⟩
    rw [Cache.learnAll, foldl_append]
    exact ⟨(hstep _ _).1.trans ih.1, (hstep _ _).2.trans ih.2⟩

theorem mem_foldl_raiseEdge (counts l : List (Edge × Nat)) :
    (∃ m, (e, m) ∈ counts.foldl (fun all (e, n) => raiseEdge e n all) l ∧ limit ≤ m) ↔
      (∃ m, (e, m) ∈ l ∧ limit ≤ m) ∨ ∃ n, (e, n) ∈ counts ∧ limit ≤ n := by
  induction counts generalizing l with
  | nil => simp
  | cons entry rest ih =>
    obtain ⟨e', n⟩ := entry
    rw [foldl_cons, ih, mem_raiseEdge, or_assoc]
    refine or_congr_right ?_
    simp only [mem_cons, Prod.mk.injEq, or_and_right, exists_or, and_assoc]
    refine or_congr_left ⟨fun ⟨he, hle⟩ => ⟨n, he, rfl, hle⟩, ?_⟩
    rintro ⟨_, he, rfl, hle⟩
    exact ⟨he, hle⟩

end Learn

/-! ## Trees one after the other -/

/-- A tree whose constants are values of a heap and whose operands have values, and that is not too
large for the stack or the pool of constants. -/
structure Node.Analysable (h : Heap) (n : Node) : Prop where
  made : n.MadeIn h
  orderly : n.Everywhere Node.Orderly
  room : 4 * n.subexpressions.length < 2 ^ 63
  pool : (n.emitInto (fun _ _ => false) { Code.create "cse.analysis" [] with observing := true } :
    Except Failure Unit × Code).2.chunk.constants.size ≤ 65536

namespace Cache

/-- The cache has learned what there is to be learned from trees. -/
structure Surveyed (c : Cache) (roots : List Node) : Prop where
  knows : c.Knows (roots.flatMap (observed none))
  often : ∀ e, (∃ n, (e, n) ∈ c.counts ∧ 2 ≤ n) ↔
    ∃ root ∈ roots, 2 ≤ (root.observed none).countP (·.along e)

theorem surveyed_nil : ({} : Cache).Surveyed [] := by
  refine ⟨⟨nodup_nil, fun x hx => absurd hx not_mem_nil, fun s => ?_⟩, fun e => ?_⟩ <;> simp

/-- One more tree is analysed. -/
theorem Surveyed.analyze (hc : c.Surveyed roots) (hroot : root.Analysable h) :
    ∃ c' events, c.analyze root = (.ok (), c', events) ∧ c'.Surveyed (roots ++ [root]) ∧
      c'.marked = c.marked := by
  obtain ⟨code, hyields, hobservations⟩ :=
    observations_emitInto hroot.orderly hroot.room "cse.analysis" (fun _ _ => false) hroot.pool
  have hemits : (root.emitInto (fun _ _ => false)
      { Code.create "cse.analysis" [] with observing := true } :
      Except Failure Unit × Code) = (.ok (), code) := hyields
  obtain ⟨hknows, hcounted⟩ := hc.knows.learnAll (root.observed none)
  obtain ⟨hcounts, hmarked⟩ := c.learnAll_rest (root.observed none)
  let learned := c.learnAll (root.observed none)
  let all := learned.2.foldl (fun all (e, n) => raiseEdge e n all) learned.1.counts
  refine ⟨{ learned.1 with counts := all }, code.events, ?_, ⟨?_, fun e => ?_⟩, hmarked⟩
  · rw [Cache.analyze, hemits]
    dsimp only
    rw [hobservations]
  · rw [flatMap_append, flatMap_singleton]
    exact ⟨hknows.distinct, hknows.sums, hknows.noticed⟩
  · dsimp only [all, learned]
    rw [mem_foldl_raiseEdge, hcounts, hc.often]
    simp only [mem_append, mem_singleton, or_and_right, exists_or, exists_eq_left, hcounted.counted]
    refine or_congr_right ⟨?_, fun hle => ⟨_, ⟨by omega, rfl⟩, hle⟩⟩
    rintro ⟨n, ⟨-, rfl⟩, hle⟩
    exact hle

theorem Surveyed.analyzeAll (hc : c.Surveyed roots) (hmore : ∀ n ∈ more, n.Analysable h) :
    ∃ c' events, c.analyzeAll more = (.ok (), c', events) ∧ c'.Surveyed (roots ++ more) ∧
      c'.marked = c.marked := by
  induction more generalizing c roots with
  | nil => exact ⟨c, #[], rfl, by rwa [append_nil], rfl⟩
  | cons root rest ih =>
    obtain ⟨c1, events, hfirst, hc1, hmarked⟩ := hc.analyze (hmore root (by simp))
    obtain ⟨c', events', hrest, hc', hmarked'⟩ := ih hc1 fun n hn => hmore n (mem_cons_of_mem _ hn)
    refine ⟨c', events ++ events', ?_, ?_, hmarked'.trans hmarked⟩
    · rw [analyzeAll, hfirst]
      dsimp only
      rw [hrest]
    · rwa [append_assoc] at hc'

/-! ## Marks -/

theorem isMarked_iff : c.isMarked s = true ↔ ofText s ∈ c.marked :=
  contains_iff_mem

theorem mem_mark {t : Text} :
    ofText s ∈ (c.mark t).marked ↔ ofText s ∈ c.marked ∨ s = t := by
  unfold mark
  split
  next ht =>
    refine ⟨.inl, ?_⟩
    rintro (hs | rfl)
    · exact hs
    · exact isMarked_iff.mp ht
  next => simp

/-- Marks one more signature. -/
def markNext : Cache × Array Event → HashedText → Cache × Array Event
  | (marked, events), s =>
    if marked.isMarked s.text then (marked, events)
    else (marked.mark s.text, events.push (.marked s.text))

/-- What is marked are the eligible signatures that are repeated, and what was marked before.
Nothing else that is known changes. -/
theorem markRepeated_spec (c : Cache) :
    (∀ s, c.markRepeated.1.isMarked s = true ↔ c.isMarked s = true ∨
      ofText s ∈ c.repeated ∧ c.isEligible (.ofText s) = true) ∧
      c.markRepeated.1.sightings = c.sightings ∧ c.markRepeated.1.counts = c.counts := by
  have hfold : ∀ (l : List HashedText) (b : Cache) (events : Array Event),
      let b' := (l.foldl markNext (b, events)).1
      (∀ s, b'.isMarked s = true ↔ b.isMarked s = true ∨ ofText s ∈ l) ∧
        b'.sightings = b.sightings ∧ b'.counts = b.counts := by
    intro l
    induction l with
    | nil => exact fun b events => ⟨by simp, rfl, rfl⟩
    | cons t rest ih =>
      intro b events
      have ht : ofText t.text = t := ext_text rfl
      rw [foldl_cons, markNext]
      split
      next hmarked =>
        obtain ⟨hmarks, hrest⟩ := ih b events
        refine ⟨fun s => (hmarks s).trans ?_, hrest⟩
        rw [mem_cons]
        refine ⟨Or.imp_right .inr, ?_⟩
        rintro (hs | rfl | hs)
        · exact .inl hs
        · exact .inl hmarked
        · exact .inr hs
      next hmarked =>
        obtain ⟨hmarks, hsightings, hcounts⟩ := ih (b.mark t.text) (events.push (.marked t.text))
        have hmark : b.mark t.text = { b with marked := b.marked ++ [.ofText t.text] } :=
          if_neg hmarked
        refine ⟨fun s => (hmarks s).trans ?_, hsightings.trans (by rw [hmark]),
          hcounts.trans (by rw [hmark])⟩
        rw [isMarked_iff, isMarked_iff, mem_mark, mem_cons, or_assoc, ← ht, ofText_inj]
        rfl
  obtain ⟨hmarks, hsightings, hcounts⟩ := hfold (c.repeated.filter c.isEligible) c #[]
  refine ⟨fun s => (hmarks s).trans ?_, hsightings, hcounts⟩
  rw [mem_filter]

end Cache

/-! ## Signatures that are repeated -/

namespace Node

variable {n : Node} {parent : Option LazySignature}

theorem Matches.isTerminal_eq {R : Value → Value → Prop} (hmatches : n.Matches R m) :
    n.isTerminal = m.isTerminal := by
  cases hmatches with
  | const => rfl
  | operands hform => cases hform <;> rfl

def occursUnder (p s : Text) (root : Node) : Nat :=
  root.occurrences.countP fun occurrence =>
    occurrence.1.signature == p && occurrence.2.signature == s

theorem occursUnder_pos {p : Text} :
    0 < root.occursUnder p s ↔ ∃ q m, (q, m) ∈ root.occurrences ∧ q.signature = p ∧
    m.signature = s := by
  simp [occursUnder, countP_pos_iff]

theorem mem_occurrences {p : Node} (hm : m ∈ p.operands) : (p, m) ∈ p.occurrences := by
  rw [occurrences_eq]
  exact mem_flatMap.mpr ⟨m, hm, mem_append_right _ (mem_singleton_self _)⟩

/-- The operands of an expression occur under it. -/
theorem countP_operands_le (root : Node) (s : Text) :
    root.operands.countP (·.signature == s) ≤ root.occursUnder root.signature s := by
  rw [occursUnder, occurrences_eq]
  induction root.operands with
  | nil => exact Nat.le_refl 0
  | cons m rest ih =>
    rw [countP_cons, flatMap_cons, countP_append, countP_append,
      countP_singleton, beq_self_eq_true, Bool.true_and]
    dsimp only
    omega

/-- What an observer is told of an expression is what is expected of it. -/
theorem expected_of_mem_observed (ho : o ∈ n.observed parent) :
    o.reachable = true ∧ o.net = o.child.effect := by
  rcases mem_append.mp ho with ho | ho
  · obtain ⟨occurrence, -, rfl⟩ := mem_map.mp ho
    exact ⟨rfl, rfl⟩
  · rw [mem_singleton.mp ho]
    exact ⟨rfl, rfl⟩

theorem Everywhere.observed {P : Node → Prop} (hn : n.Everywhere P) (ho : o ∈ n.observed parent) :
    o.child.Everywhere P := by
  rcases mem_append.mp ho with ho | ho
  · obtain ⟨⟨p, k⟩, hk, rfl⟩ := mem_map.mp ho
    exact (Everywhere.occurrence n hn p k hk).2
  · rw [mem_singleton.mp ho]
    exact hn

/-- An observation with a parent is of an occurrence. -/
theorem exists_of_mem_observed (ho : o ∈ n.observed none) {P : HashedText}
    (hunder : o.under = some P) : ∃ occurrence ∈ n.occurrences, o = sighted occurrence := by
  rcases mem_append.mp ho with ho | ho
  · obtain ⟨occurrence, hmem, rfl⟩ := mem_map.mp ho
    exact ⟨occurrence, hmem, rfl⟩
  · rw [mem_singleton.mp ho] at hunder
    cases hunder

theorem under_sighted (occurrence : Node × Node) :
    (sighted occurrence).under = some (.ofText occurrence.1.signature) := rfl

theorem mem_observed {occurrence : Node × Node} (hmem : occurrence ∈ n.occurrences)
    (parent : Option LazySignature) : sighted occurrence ∈ n.observed parent :=
  mem_append_left _ (mem_map_of_mem hmem)

/-- The expression itself has no parent, so that only what is below it is counted. -/
theorem countP_along (e : Edge) (n : Node) :
    (n.observed none).countP (·.along e) = n.occurrences.countP fun occurrence =>
      (sighted occurrence).along e := by
  have hroot : Observation.along e ⟨none, n, n.effect, true⟩ = false := by
    simp [Observation.along, Observation.under]
  rw [observed, countP_append, countP_singleton, hroot, countP_map]
  rfl

end Node

/-- Expressions with a signature leave one value and are repeated in trees: they occur under parents
with different signatures, or twice under parents with one signature in one tree. -/
structure Repeated (roots : List Node) (s : Text) : Prop where
  occurs : ∃ root ∈ roots, ∃ p m, (p, m) ∈ root.occurrences ∧ m.signature = s ∧
    m.isTerminal = false ∧ m.effect = 1
  again : (∃ p q, p ≠ q ∧ (∃ root ∈ roots, 0 < root.occursUnder p s) ∧
      ∃ root ∈ roots, 0 < root.occursUnder q s) ∨
    ∃ p, ∃ root ∈ roots, 2 ≤ root.occursUnder p s

/-- What is repeated in trees is repeated in more trees. -/
theorem Repeated.mono {roots' : List Node} (h : Repeated roots s) (hsubset : roots ⊆ roots') :
    Repeated roots' s := by
  obtain ⟨⟨root, hroot, hoccurs⟩, hagain⟩ := h
  refine ⟨⟨root, hsubset hroot, hoccurs⟩, ?_⟩
  rcases hagain with ⟨p, q, hne, ⟨root1, hroot1, hp⟩, root2, hroot2, hq⟩ | ⟨p, root1, hroot1, hp⟩
  · exact .inl ⟨p, q, hne, ⟨root1, hsubset hroot1, hp⟩, root2, hsubset hroot2, hq⟩
  · exact .inr ⟨p, root1, hsubset hroot1, hp⟩

namespace Cache

variable {S : HashedText}

/-- There is one entry for a signature. -/
theorem Knows.sighting?_eq (hc : c.Knows seen) (hx : x ∈ c.sightings) :
    c.sighting? x.signature = some x := by
  cases hfound : c.sighting? x.signature with
  | none =>
    have hnone := find?_eq_none.mp hfound x hx
    simp at hnone
  | some y =>
    have hsame : y.signature = x.signature := by simpa using find?_some hfound
    rw [inj_on_of_nodup_map hc.distinct (mem_of_find?_eq_some hfound) hx hsame]

theorem Knows.isEligible_iff (hc : c.Knows seen) (hx : x ∈ c.sightings) :
    c.isEligible x.signature = true ↔ x.eligible = true := by
  rw [isEligible, hc.sighting?_eq hx]
  rfl

theorem exists_of_isEligible (heligible : c.isEligible S = true) :
    ∃ x ∈ c.sightings, x.signature = S := by
  unfold isEligible at heligible
  cases hfound : c.sighting? S with
  | none => rw [hfound] at heligible; cases heligible
  | some x => exact ⟨x, mem_of_find?_eq_some hfound, by simpa using find?_some hfound⟩

theorem mem_repeated :
    S ∈ c.repeated ↔ (∃ x ∈ c.sightings, 2 ≤ x.parents.length ∧ x.signature = S) ∨
      ∃ e : Edge, (∃ n, (e, n) ∈ c.counts ∧ 2 ≤ n) ∧ e.child = S := by
  simp only [repeated, mem_append, mem_map, mem_filter, decide_eq_true_eq, and_assoc, Prod.exists]
  refine or_congr_right ⟨?_, ?_⟩
  · rintro ⟨e, n, hmem, hle, hchild⟩
    exact ⟨e, ⟨n, hmem, hle⟩, hchild⟩
  · rintro ⟨e, ⟨n, hmem, hle⟩, hchild⟩
    exact ⟨e, n, hmem, hle, hchild⟩

/-- What is eligible and occurs often enough is repeated. -/
theorem Surveyed.repeated_of_mem (hc : c.Surveyed roots) (hmem : ofText s ∈ c.repeated)
    (heligible : c.isEligible (.ofText s) = true) : Repeated roots s := by
  obtain ⟨x, hx, hsignature⟩ := exists_of_isEligible heligible
  have hgood : ∀ o ∈ roots.flatMap (observed none), o.about (.ofText s) = true → o.good = true := by
    rw [← hsignature] at heligible ⊢
    exact (hc.knows.sums x hx).eligible.mp ((hc.knows.isEligible_iff hx).mp heligible)
  -- An observation of the signature under a parent is of an occurrence that leaves one value.
  have hoccurs : ∀ root ∈ roots, ∀ o ∈ root.observed none, o.about (.ofText s) = true → ∀ P,
      o.under = some P → ∃ p m, (p, m) ∈ root.occurrences ∧ m.signature = s ∧ m.isTerminal = false ∧
        m.effect = 1 ∧ P = .ofText p.signature := by
    intro root hroot o ho habout P hunder
    obtain ⟨⟨p, m⟩, hoccurrence, rfl⟩ := exists_of_mem_observed ho hunder
    obtain ⟨hterminal, hsame⟩ := Observation.about_iff.mp habout
    have heffect : m.effect = 1 := by
      have := hgood _ (mem_flatMap.mpr ⟨root, hroot, ho⟩) habout
      simpa [Observation.good, sighted] using this
    exact ⟨p, m, hoccurrence, ofText_inj.mp hsame, hterminal, heffect,
      (Option.some.inj hunder).symm⟩
  rcases mem_repeated.mp hmem with ⟨y, hy, hlength, hsame⟩ | ⟨e, hcount, hchild⟩
  · have hsums := hc.knows.sums y hy
    obtain ⟨P, Q, hP, hQ, hne⟩ : ∃ P Q, P ∈ y.parents ∧ Q ∈ y.parents ∧ P ≠ Q := by
      have hdistinct := hsums.distinct
      match hparents : y.parents, hlength with
      | P :: Q :: rest, _ =>
        rw [hparents] at hdistinct
        exact ⟨P, Q, by simp, by simp, fun heq =>
          (nodup_cons.mp hdistinct).1 (heq ▸ mem_cons_self)⟩
    have hparent : ∀ P ∈ y.parents, ∃ root ∈ roots, ∃ p m, (p, m) ∈ root.occurrences ∧
        m.signature = s ∧ m.isTerminal = false ∧ m.effect = 1 ∧ P = .ofText p.signature := by
      intro P hP
      obtain ⟨o, ho, habout, hunder⟩ := (hsums.parents P).mp hP
      obtain ⟨root, hroot, ho⟩ := mem_flatMap.mp ho
      exact ⟨root, hroot, hoccurs root hroot o ho (hsame ▸ habout) P hunder⟩
    obtain ⟨root, hroot, p, m, hpm, hm, hterminal, heffect, rfl⟩ := hparent P hP
    obtain ⟨root', hroot', q, m', hqm, hm', -, -, rfl⟩ := hparent Q hQ
    refine ⟨⟨root, hroot, p, m, hpm, hm, hterminal, heffect⟩,
      .inl ⟨p.signature, q.signature, ?_, ?_, ?_⟩⟩
    · exact fun heq => hne (congrArg _ heq)
    · exact ⟨root, hroot, occursUnder_pos.mpr ⟨p, m, hpm, rfl, hm⟩⟩
    · exact ⟨root', hroot', occursUnder_pos.mpr ⟨q, m', hqm, rfl, hm'⟩⟩
  · obtain ⟨root, hroot, hle⟩ := (hc.often e).mp hcount
    obtain ⟨o, ho, halong⟩ := countP_pos_iff.mp (Nat.lt_of_lt_of_le Nat.two_pos hle)
    obtain ⟨habout, hunder⟩ := Observation.along_iff.mp halong
    obtain ⟨p, m, hpm, hm, hterminal, heffect, -⟩ :=
      hoccurs root hroot o ho (hchild ▸ habout) _ hunder
    refine ⟨⟨root, hroot, p, m, hpm, hm, hterminal, heffect⟩, .inr ⟨e.parent.text, root, hroot, ?_⟩⟩
    rw [countP_along] at hle
    refine hle.trans (countP_mono_left fun occurrence _ halong => ?_)
    obtain ⟨habout, hunder⟩ := Observation.along_iff.mp halong
    rw [hchild, Observation.about_iff] at habout
    have hparent : occurrence.1.signature = e.parent.text :=
      congrArg text (Option.some.inj hunder)
    have hsame : occurrence.2.signature = s := ofText_inj.mp habout.2
    rw [hparent, hsame, beq_self_eq_true, beq_self_eq_true, Bool.and_self]

/-- What is repeated is eligible and occurs often enough, since a signature tells how many values an
expression leaves. -/
theorem Surveyed.mem_of_repeated (hfounded : h.Founded) (hc : c.Surveyed roots)
    (hmade : ∀ n ∈ roots, n.MadeIn h) (hs : Repeated roots s) :
    ofText s ∈ c.repeated ∧ c.isEligible (.ofText s) = true := by
  obtain ⟨⟨root0, hroot0, p0, m0, hoccurrence0, rfl, hterminal0, heffect0⟩, hagain⟩ := hs
  have hm0 : m0.MadeIn h := (Node.Everywhere.occurrence root0 (hmade root0 hroot0)
    p0 m0 hoccurrence0).2
  have halike : ∀ n : Node, n.MadeIn h → n.signature = m0.signature →
      n.isTerminal = false ∧ n.effect = 1 := by
    intro n hn heq
    have hmatches := (signature_eq_iff hfounded hn hm0).mp heq
    rw [hmatches.isTerminal_eq, Node.Matches.effect_eq n m0 hmatches]
    exact ⟨hterminal0, heffect0⟩
  -- Every occurrence of the signature is noticed under its parent.
  have hsighted : ∀ root ∈ roots, ∀ p m, (p, m) ∈ root.occurrences → m.signature = m0.signature →
      (sighted (p, m)).about (.ofText m0.signature) = true := by
    intro root hroot p m hoccurrence heq
    have hm := (Node.Everywhere.occurrence root (hmade root hroot) p m hoccurrence).2
    exact Observation.about_iff.mpr ⟨(halike m hm heq).1, congrArg _ heq⟩
  obtain ⟨x, hx, hsignature⟩ := mem_map.mp ((hc.knows.noticed (.ofText m0.signature)).mpr
    ⟨_, mem_flatMap.mpr ⟨root0, hroot0, mem_observed hoccurrence0 none⟩,
      hsighted root0 hroot0 p0 m0 hoccurrence0 rfl⟩)
  have hsums := hc.knows.sums x hx
  rw [← hsignature, mem_repeated, hc.knows.isEligible_iff hx, hsums.eligible, hsignature]
  refine ⟨?_, fun o ho habout => ?_⟩
  · rcases hagain with ⟨p, q, hne, hp, hq⟩ | ⟨p, root, hroot, hle⟩
    · have hparent : ∀ t, (∃ root ∈ roots, 0 < root.occursUnder t m0.signature) →
          ofText t ∈ x.parents := by
        rintro t ⟨root, hroot, hpos⟩
        obtain ⟨k, m, hoccurrence, rfl, heq⟩ := occursUnder_pos.mp hpos
        refine (hsums.parents _).mpr ⟨sighted (k, m), ?_, ?_, under_sighted _⟩
        · exact mem_flatMap.mpr ⟨root, hroot, mem_observed hoccurrence none⟩
        · exact hsignature ▸ hsighted root hroot k m hoccurrence heq
      refine .inl ⟨x, hx, ?_, hsignature⟩
      have hpair : [ofText p, ofText q].Nodup := by simpa using hne
      refine (hpair.subperm fun t ht => ?_).length_le
      rcases mem_pair.mp ht with rfl | rfl
      · exact hparent p hp
      · exact hparent q hq
    · refine .inr ⟨⟨.ofText p, .ofText m0.signature⟩, (hc.often _).mpr ⟨root, hroot, ?_⟩, rfl⟩
      rw [countP_along]
      refine hle.trans (countP_mono_left fun occurrence hoccurrence hsame => ?_)
      obtain ⟨hparent, hchild⟩ := Bool.and_eq_true_iff.mp hsame
      refine Observation.along_iff.mpr ⟨?_, ?_⟩
      · exact hsighted root hroot occurrence.1 occurrence.2 hoccurrence (eq_of_beq hchild)
      · rw [under_sighted, eq_of_beq hparent]
  · obtain ⟨root, hroot, ho⟩ := mem_flatMap.mp ho
    obtain ⟨hreachable, hnet⟩ := expected_of_mem_observed ho
    have heq : o.child.signature = m0.signature :=
      ofText_inj.mp (Observation.about_iff.mp habout).2
    have heffect := (halike o.child (Node.Everywhere.observed (hmade root hroot) ho) heq).2
    simp [Observation.good, hreachable, hnet, heffect]

/-- The caches that arise by analysing trees, with the trees that were analysed. -/
inductive Analysed (h : Heap) : Cache → List Node → Prop
  | new : Analysed h {} []
  | more {c c' : Cache} {roots more : List Node} {events : Array Event} : Analysed h c roots →
      (∀ n ∈ more, n.Analysable h) → c.maybeCache more = (.ok (), c', events) →
      Analysed h c' (roots ++ more)

/-- One call analyses its trees and marks what is worth it. -/
theorem Surveyed.maybeCache (hc : c.Surveyed roots) (hmore : ∀ n ∈ more, n.Analysable h) :
    ∃ c' events, c.maybeCache more = (.ok (), c', events) ∧ c'.Surveyed (roots ++ more) ∧
      ∀ s, c'.isMarked s = true ↔ c.isMarked s = true ∨
        ofText s ∈ c'.repeated ∧ c'.isEligible (.ofText s) = true := by
  obtain ⟨c1, events, hanalyze, hc1, hmarked⟩ := hc.analyzeAll hmore
  obtain ⟨hmarks, hsightings, hcounts⟩ := c1.markRepeated_spec
  refine ⟨c1.markRepeated.1, events ++ c1.markRepeated.2, ?_, ⟨⟨?_, ?_, ?_⟩, ?_⟩, fun s => ?_⟩
  · rw [Cache.maybeCache, hanalyze]
  · rw [hsightings]
    exact hc1.knows.distinct
  · rw [hsightings]
    exact hc1.knows.sums
  · rw [hsightings]
    exact hc1.knows.noticed
  · rw [hcounts]
    exact hc1.often
  · have hold : c1.isMarked s = c.isMarked s := by rw [isMarked, isMarked, hmarked]
    rw [hmarks, hold, repeated, repeated, isEligible, isEligible, sighting?,
      sighting?, hsightings, hcounts]

/-- What is known and marked after any number of calls. -/
theorem Analysed.spec (hfounded : h.Founded) (hc : Analysed h c roots) :
    c.Surveyed roots ∧ (∀ n ∈ roots, n.Analysable h) ∧ ∀ s, c.isMarked s = true ↔
    Repeated roots s := by
  induction hc with
  | new =>
    refine ⟨surveyed_nil, fun n hn => absurd hn not_mem_nil, fun s => ⟨fun hs => (by cases hs), ?_⟩⟩
    rintro ⟨⟨root, hroot, -⟩, -⟩
    exact absurd hroot not_mem_nil
  | @more c c' roots more events hc hmore hcall ih =>
    obtain ⟨hsurveyed, hroots, hmarks⟩ := ih
    obtain ⟨c'', events', hcall', hsurveyed', hmarks'⟩ := hsurveyed.maybeCache hmore
    obtain ⟨-, hrest⟩ := Prod.mk.inj (hcall.symm.trans hcall')
    obtain ⟨rfl, -⟩ := Prod.mk.inj hrest
    have hall : ∀ n ∈ roots ++ more, n.Analysable h := fun n hn =>
      (mem_append.mp hn).elim (hroots n) (hmore n)
    refine ⟨hsurveyed', hall, fun s => (hmarks' s).trans ⟨?_, fun hs => .inr ?_⟩⟩
    · rintro (hold | ⟨hmem, heligible⟩)
      · exact ((hmarks s).mp hold).mono (subset_append_left roots more)
      · exact hsurveyed'.repeated_of_mem hmem heligible
    · exact hsurveyed'.mem_of_repeated hfounded (fun n hn => (hall n hn).made) hs

/-- After any calls, the marked signatures are exactly those that are repeated in the trees analysed
so far. Each further call succeeds, and the marks depend on the set of trees alone: with more trees
there are more marks, and neither the order of the trees nor their grouping nor analysing a tree
again matters. -/
theorem marks_are_repeated (hfounded : h.Founded) (hc : Analysed h c roots) :
    (∀ s, c.isMarked s = true ↔ Repeated roots s) ∧
      (∀ more, (∀ n ∈ more, n.Analysable h) →
        ∃ c' events, c.maybeCache more = (.ok (), c', events)) ∧
      ∀ c' roots', Analysed h c' roots' → roots ⊆ roots' → ∀ s, c.isMarked s = true →
      c'.isMarked s = true := by
  obtain ⟨hsurveyed, -, hmarks⟩ := hc.spec hfounded
  refine ⟨hmarks, fun more hmore => ?_, fun c' roots' hc' hsubset s hs => ?_⟩
  · obtain ⟨c', events, hcall, -⟩ := hsurveyed.maybeCache hmore
    exact ⟨c', events, hcall⟩
  · obtain ⟨-, -, hmarks'⟩ := hc'.spec hfounded
    exact (hmarks' s).mpr (((hmarks s).mp hs).mono hsubset)

end Cache

namespace Node

/-- The sum of a name and one, twice in a tuple. -/
def twice : Node := .collection .tuple [successor, successor]

theorem madeIn_successor : successor.MadeIn {} := by
  intro m hm
  simp only [successor, subexpressions_eq, children, flatMap_cons, flatMap_nil, append_nil,
    cons_append, nil_append, mem_cons, not_mem_nil, or_false] at hm
  rcases hm with rfl | rfl | rfl <;> rintro v s ⟨⟩
  exact ⟨by decide +kernel, trivial⟩

theorem analysable_twice : twice.Analysable {} := by
  refine ⟨everywhere_iff.mpr ⟨nofun, fun m hm => ?_⟩, fun m hm => ?_, by decide, by decide +kernel⟩
  · have hsame : m = successor := by simpa [twice, children] using hm
    exact hsame ▸ madeIn_successor
  · have hbuilt : twice.Everywhere Built := by decide
    have hvalued : twice.Everywhere Valued := by decide
    have hstraight : twice.Everywhere (·.isNext = false) := by decide
    exact ⟨hbuilt m hm, hvalued m hm, hstraight m hm⟩

end Node

/-- The sum occurs twice under the tuple and is marked; the tuple occurs under nothing and is not.
-/
theorem Cache.marks_are_repeated_twice : ({} : Heap).Founded ∧ twice.Analysable {} ∧
    ∃ c events, ({} : Cache).maybeCache [twice] = (.ok (), c, events) ∧
      c.isMarked successor.signature = true ∧ c.isMarked twice.signature = false := by
  have hmore : ∀ n ∈ [twice], n.Analysable {} := fun n hn =>
    mem_singleton.mp hn ▸ analysable_twice
  obtain ⟨-, hsucceeds, -⟩ := marks_are_repeated Heap.founded_empty (.new : Analysed {} {} [])
  obtain ⟨c, events, hcall⟩ := hsucceeds [twice] hmore
  obtain ⟨hmarks, -, -⟩ := marks_are_repeated Heap.founded_empty (Analysed.new.more hmore hcall)
  have hc : c = (({} : Cache).maybeCache [twice]).2.1 := by rw [hcall]
  refine ⟨Heap.founded_empty, analysable_twice, c, events, hcall, (hmarks _).mpr ⟨?_, .inr ?_⟩, ?_⟩
  · exact ⟨twice, by simp, twice, successor, mem_occurrences (by simp [twice,
      operands, children]), rfl, rfl, rfl⟩
  · refine ⟨twice.signature, twice, by simp, ?_⟩
    exact le_trans (by decide +kernel) (countP_operands_le twice successor.signature)
  · rw [hc]
    decide +kernel

/-- The sum of a name and one, twice in a tuple behind a choice between steps without a value. -/
def Node.behindHollow : Node :=
  .collection .tuple
    [.cond (.sequence [.const (.int 1) "int:1", .store "\"" (.const (.int 1) "int:1")])
      (.sequence [.const (.int 2) "int:2", .store "\"" (.const (.int 2) "int:2")])
      (.const (.int 3) "int:3"), successor, successor]

/-- It is not enough that assignments are steps. Behind a choice between steps without a value no
code is taken to be reachable, and what is repeated there is not marked. -/
theorem Cache.marks_miss_repeated :
    behindHollow.Everywhere Node.StoresAreSteps ∧ behindHollow.Everywhere Node.Built ∧
      behindHollow.Everywhere (·.isNext = false) ∧
      Repeated [behindHollow] successor.signature ∧
      ∃ c events, ({} : Cache).maybeCache [behindHollow] = (.ok (), c, events) ∧
        c.isMarked successor.signature = false := by
  have hcall : (({} : Cache).maybeCache [behindHollow]).1.isOk = true := by decide +kernel
  have hmark : (({} : Cache).maybeCache [behindHollow]).2.1.isMarked successor.signature =
      false := by decide +kernel
  refine ⟨by decide, by decide, by decide, ⟨?_, .inr ?_⟩, ?_⟩
  · exact ⟨behindHollow, by simp, behindHollow, successor, mem_occurrences (by
      simp [behindHollow, operands, children]), rfl, rfl, rfl⟩
  · refine ⟨behindHollow.signature, behindHollow, by simp, ?_⟩
    exact le_trans (by decide +kernel) (countP_operands_le behindHollow successor.signature)
  · cases hresult : ({} : Cache).maybeCache [behindHollow] with
    | mk result rest =>
      rw [hresult] at hcall hmark
      cases result with
      | error failure => cases hcall
      | ok u => exact ⟨rest.1, rest.2, rfl, hmark⟩

end ExprBackend
