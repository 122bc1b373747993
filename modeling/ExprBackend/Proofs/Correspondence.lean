import ExprBackend.Proofs.EndlessComparison

/-! # Operations on values that are alike

An operation that is carried out in two heaps, on operands that are alike, gives
results that are alike or fails with the same failure. It only adds cells to the
heaps. Identity is the one thing that tells values apart that are alike, so the
tests for it are left out.
-/

namespace ExprBackend

open List Run

namespace Window

/-- A sight after its heap has become another: nothing else is out of sight, and all that was there
still is. -/
structure Becomes (s : Window) (h : Heap) (s' : Window) : Prop where
  heap : s'.heap = h
  hidden : s'.hidden = s.hidden
  keeps : s.Keeps s'
  cells : ∀ {r : Ref} {cell : Cell}, s.heap.cells[r]? = some cell → s'.heap.cells[r]? = some cell

theorem Becomes.refl (s : Window) : s.Becomes s.heap s := ⟨rfl, rfl, .refl s, fun hr => hr⟩

theorem Becomes.trans {s s' s'' : Window} {h h' : Heap} (hs : s.Becomes h s')
    (hs' : s'.Becomes h' s'') : s.Becomes h' s'' :=
  ⟨hs'.heap, hs'.hidden.trans hs.hidden, hs.keeps.trans hs'.keeps,
    fun hr => hs'.cells (hs.cells hr)⟩

/-- What an operation on values can fail with. -/
inductive Raised : Failure → Prop
  | runtime (e : RuntimeError) : Raised (.runtime e)
  | fault (f : Fault) : Raised (.fault f)

/-- Two outcomes correspond if their results are related, or if they are the same failure. -/
inductive Corresponds (s t : Window) {α β : Type} (R : Window → Window → α → β → Prop) :
    Except Failure α × Heap → Except Failure β × Heap → Prop
  | ok {a : α} {b : β} {h h' : Heap} {s' t' : Window} : s.Becomes h s' → t.Becomes h' t' →
      R s' t' a b → Corresponds s t R (.ok a, h) (.ok b, h')
  | error {failure : Failure} {h h' : Heap} {s' t' : Window} : Raised failure → s.Becomes h s' →
      t.Becomes h' t' → Corresponds s t R (.error failure, h) (.error failure, h')

/-- Two operations have outcomes that correspond. -/
def Agree (s t : Window) {α β : Type} (R : Window → Window → α → β → Prop) (x : Run α) (y : Run β) :
    Prop :=
  Corresponds s t R (x s.heap) (y t.heap)

abbrev Equal {α : Type} : Window → Window → α → α → Prop := fun _ _ a b => a = b

section Agree

variable {s t : Window} {α β γ δ : Type} {R : Window → Window → α → β → Prop}
  {Q : Window → Window → γ → δ → Prop}

theorem agree_pure {a : α} {b : β} (h : R s t a b) : Agree s t R (pure a) (pure b) :=
  .ok (.refl s) (.refl t) h

theorem agree_fail {e e' : RuntimeError} (h : e = e') :
    Agree s t R (fail e : Run α) (fail e' : Run β) :=
  h ▸ .error (.runtime e) (.refl s) (.refl t)

theorem agree_stop (f : Fault) : Agree s t R (stop f : Run α) (stop f : Run β) :=
  .error (.fault f) (.refl s) (.refl t)

/-- Operations that go on alike from results that are related agree. -/
theorem agree_bind {x : Run α} {y : Run β} {f : α → Run γ} {g : β → Run δ} (h : Agree s t R x y)
    (hfg : ∀ {s' t' : Window} {a : α} {b : β}, s.Keeps s' → t.Keeps t' → R s' t' a b →
      Agree s' t' Q (f a) (g b)) : Agree s t Q (x >>= f) (y >>= g) := by
  unfold Agree at h ⊢
  rw [bind_apply, bind_apply]
  generalize x s.heap = outcome, y t.heap = outcome' at h
  cases h with
  | error hraised hs ht => exact .error hraised hs ht
  | ok hs ht hab =>
    have hrest := hfg hs.keeps ht.keeps hab
    rw [Agree, hs.heap, ht.heap] at hrest
    dsimp only
    revert hrest
    generalize f _ _ = outcome, g _ _ = outcome'
    intro hrest
    cases hrest with
    | ok hs' ht' hcd => exact .ok (hs.trans hs') (ht.trans ht') hcd
    | error hraised hs' ht' => exact .error hraised (hs.trans hs') (ht.trans ht')

theorem agree_get {f : Heap → Run α} {g : Heap → Run β} (h : Agree s t R (f s.heap) (g t.heap)) :
    Agree s t R (get >>= f) (get >>= g) := h

theorem Corresponds.imp_keeps {P : Window → Window → α → β → Prop} {x : Except Failure α × Heap}
    {y : Except Failure β × Heap} (h : Corresponds s t R x y)
    (hRP : ∀ {s' t' : Window} {a : α} {b : β}, s.Keeps s' → t.Keeps t' → R s' t' a b →
      P s' t' a b) : Corresponds s t P x y := by
  cases h with
  | ok hs ht hab => exact .ok hs ht (hRP hs.keeps ht.keeps hab)
  | error hraised hs ht => exact .error hraised hs ht

end Agree

/-! ## New cells -/

def added (s : Window) (cell : Cell) : Window where
  heap := (s.heap.alloc cell).2
  hidden := s.hidden
  hidden_lt hr := by
    rw [Heap.alloc, Array.size_push]
    exact Nat.lt_succ_of_lt (s.hidden_lt hr)

theorem becomes_added (s : Window) (cell : Cell) :
    s.Becomes (s.heap.alloc cell).2 (s.added cell) := by
  have hcells : ∀ {r : Ref} {other : Cell}, s.heap.cells[r]? = some other →
      (s.added cell).heap.cells[r]? = some other := by
    intro r other h
    have hlt : r < s.heap.cells.size := (Array.getElem?_eq_some_iff.mp h).1
    change (s.heap.cells.push cell)[r]? = some other
    rw [Array.getElem?_push, if_neg (Nat.ne_of_lt hlt), h]
  exact ⟨rfl, rfl, ⟨fun h => ⟨hcells h.1, h.2⟩⟩, hcells⟩

theorem keeps_added (s : Window) (cell : Cell) : s.Keeps (s.added cell) :=
  (s.becomes_added cell).keeps

theorem shows_added (s : Window) (cell : Cell) : (s.added cell).Shows s.heap.cells.size cell := by
  refine ⟨?_, fun hhidden => Nat.lt_irrefl _ (s.hidden_lt hhidden)⟩
  change (s.heap.cells.push cell)[s.heap.cells.size]? = some cell
  rw [Array.getElem?_push, if_pos rfl]

theorem agree_alloc {s t : Window} (cell cell' : Cell) {R : Window → Window → Ref → Ref → Prop}
    (h : R (s.added cell) (t.added cell') s.heap.cells.size t.heap.cells.size) :
    Agree s t R (alloc cell) (alloc cell') := by
  exact .ok (s.becomes_added cell) (t.becomes_added cell') h

section Values

variable {s t : Window} {v w x y : Value} {items items' : List Value} {s' t' : Window}
  {a b c a' b' c' : Value} {d d' : Dict} {op : BinaryOp} {α : Type} {R : α → α → Prop}
  {as bs : List α}

abbrev LikeAll (s t : Window) : List Value → List Value → Prop := Forall₂ (Like s t)

theorem LikeAll.keeps (h : LikeAll s t items items') (hs : s.Keeps s') (ht : t.Keeps t') :
    LikeAll s' t' items items' :=
  h.imp fun _ _ hab => hab.keeps hs ht

theorem agree_newList (h : LikeAll s t items items') :
    Agree s t Like (newList items) (newList items') := by
  refine agree_bind (R := fun s t r r' => Like s t (.list r) (.list r')) (agree_alloc _ _ ?_)
    fun _ _ hr => agree_pure hr
  refine LikeBy.like (.list (s.shows_added _) (t.shows_added _) ?_)
  rw [toList_toArray, toList_toArray]
  exact h.keeps (s.keeps_added _) (t.keeps_added _)

theorem agree_newTuple (h : LikeAll s t items items') :
    Agree s t Like (newTuple items) (newTuple items') := by
  refine agree_bind (R := fun s t r r' => Like s t (.tuple r) (.tuple r')) (agree_alloc _ _ ?_)
    fun _ _ hr => agree_pure hr
  exact LikeBy.like (.tuple (s.shows_added _) (t.shows_added _)
    (h.keeps (s.keeps_added _) (t.keeps_added _)))

theorem agree_newSlice (ha : Like s t a a') (hb : Like s t b b') (hc : Like s t c c') :
    Agree s t Like (newSlice a b c) (newSlice a' b' c') := by
  refine agree_bind (R := fun s t r r' => Like s t (.slice r) (.slice r')) (agree_alloc _ _ ?_)
    fun _ _ hr => agree_pure hr
  have hs := s.keeps_added (.slice a b c)
  have ht := t.keeps_added (.slice a' b' c')
  exact LikeBy.like (.slice (s.shows_added _) (t.shows_added _) (ha.keeps hs ht) (hb.keeps hs ht)
    (hc.keeps hs ht))

/-- Dictionaries are alike, entry by entry. -/
abbrev LikeDict (s t : Window) (d d' : Dict) : Prop :=
  Forall₂ (Dict.Entry.Like (Like s t)) d.latest d'.latest

theorem LikeDict.keeps (h : LikeDict s t d d') (hs : s.Keeps s') (ht : t.Keeps t') :
    LikeDict s' t' d d' :=
  h.imp fun _ _ hentry => hentry.imp fun _ _ hab => hab.keeps hs ht

theorem agree_newDict (h : LikeDict s t d d') :
    Agree s t Like (newDict d) (newDict d') := by
  refine agree_bind (R := fun s t r r' => Like s t (.dict r) (.dict r')) (agree_alloc _ _ ?_)
    fun _ _ hr => agree_pure hr
  exact LikeBy.like (.dict (s.shows_added _) (t.shows_added _)
    (LikeDict.keeps h (s.keeps_added _) (t.keeps_added _)))

/-! ## Operators -/

theorem like_bool (s t : Window) (b : Bool) : Like s t (.bool b) (.bool b) := LikeBy.like (.bool b)

theorem like_int (s t : Window) (i : Int64) : Like s t (.int i) (.int i) := LikeBy.like (.int i)

theorem like_float (s t : Window) (f : Float) : Like s t (.float f) (.float f) :=
  LikeBy.like (.float f)

theorem like_str (s t : Window) (x : Text) : Like s t (.str x) (.str x) := LikeBy.like (.str x)

theorem like_none (s t : Window) : Like s t .none .none := LikeBy.like .none

theorem agree_unary (op : UnaryOp) (h : Like s t v w) :
    Agree s t Like (unary op v) (unary op w) := by
  have htruthy := h.truthy
  cases op with
  | not =>
    refine agree_bind (R := Equal) (agree_pure htruthy) fun _ _ hab => ?_
    subst hab
    exact agree_pure (like_bool ..)
  | negate =>
    cases h.likeBy with
    | int i => exact agree_pure (like_int ..)
    | float f => exact agree_pure (like_float ..)
    | _ => exact agree_fail rfl
  | plus =>
    cases h.likeBy with
    | int i => exact agree_pure (like_int ..)
    | float f => exact agree_pure (like_float ..)
    | _ => exact agree_fail rfl
  | invert =>
    cases h.likeBy with
    | int i => exact agree_pure (like_int ..)
    | _ => exact agree_fail rfl

/-- Scalars that are computed without the heap are alike. -/
theorem agree_scalar {result : Except RuntimeError Value} (h : ∀ v, result = .ok v → Like s t v v) :
    Agree s t Like (ofExcept result) (ofExcept result) := by
  cases result with
  | ok v => exact agree_pure (h v rfl)
  | error e => exact agree_fail rfl

theorem like_integer {i j : Int64} (h : Integer.binary op i j = .ok v) : Like s t v v := by
  cases op <;> simp only [Integer.binary] at h <;> (repeat' split at h) <;> cases h <;>
    first | exact like_int .. | exact like_float ..

theorem like_real {f g : Float} (h : Real.binary op f g = .ok v) : Like s t v v := by
  cases op <;> simp only [Real.binary] at h <;> (repeat' split at h) <;> cases h <;>
    exact like_float ..

theorem agree_repeatItems (count : Nat) (h : Forall₂ R as bs) :
    Agree s t (fun _ _ => Forall₂ R) (repeatItems count as) (repeatItems count bs) := by
  have hrepeated : Forall₂ R (repeated count as) (repeated count bs) := by
    unfold repeated
    induction count with
    | zero => exact .nil
    | succ count ih =>
      rw [replicate_succ, replicate_succ, flatten_cons, flatten_cons]
      exact rel_append h ih
  have hempty : as.isEmpty = bs.isEmpty := by cases h <;> rfl
  unfold repeatItems
  simp only [h.length_eq, hempty]
  split
  · exact agree_fail rfl
  · split
    · exact agree_pure .nil
    · exact agree_pure hrepeated

theorem agree_repeatSequence (h : Like s t v w) (count : Int64) :
    Agree s t Like (repeatSequence v count) (repeatSequence w count) := by
  unfold repeatSequence
  cases h.likeBy with
  | str x =>
    have hsame : Forall₂ (· = ·) x x := forall₂_refl x
    refine agree_bind (agree_repeatItems _ hsame) fun _ _ hab => ?_
    rw [forall₂_eq_eq_eq] at hab
    subst hab
    exact agree_pure (like_str ..)
  | list hr hr' hitems =>
    refine agree_get ?_
    rw [Heap.list, Heap.list, list_of_shows hr, list_of_shows hr']
    exact agree_bind (agree_repeatItems _ hitems) fun hs ht hab =>
      agree_newList (LikeAll.keeps hab hs ht)
  | tuple hr hr' hitems =>
    refine agree_get ?_
    rw [tuple_of_shows hr, tuple_of_shows hr']
    exact agree_bind (agree_repeatItems _ hitems) fun hs ht hab =>
      agree_newTuple (LikeAll.keeps hab hs ht)
  | _ => exact agree_fail rfl

theorem agree_concat (h : Like s t v w) (h' : Like s t x y) :
    Agree s t Like (Run.concat v x) (Run.concat w y) := by
  have hkinds : RuntimeError.operands BinaryOp.add.symbol [v.kind, x.kind] =
      .operands BinaryOp.add.symbol [w.kind, y.kind] := by
    rw [h.kind, h'.kind]
  unfold Run.concat
  cases h.likeBy with
  | str a =>
    cases h'.likeBy with
    | str b => exact agree_pure (like_str ..)
    | _ => exact agree_fail rfl
  | list hr hr' hitems =>
    cases h'.likeBy with
    | list hq hq' hmore =>
      refine agree_get (agree_get ?_)
      rw [Heap.list, Heap.list, Heap.list, Heap.list, list_of_shows hr, list_of_shows hr',
        list_of_shows hq, list_of_shows hq']
      exact agree_newList (rel_append hitems hmore)
    | _ => exact agree_fail rfl
  | tuple hr hr' hitems =>
    cases h'.likeBy with
    | tuple hq hq' hmore =>
      refine agree_get (agree_get ?_)
      rw [tuple_of_shows hr, tuple_of_shows hr', tuple_of_shows hq, tuple_of_shows hq']
      exact agree_newTuple (rel_append hitems hmore)
    | _ => exact agree_fail rfl
  | _ => exact agree_fail hkinds

/-- What a binary operator does if its operands are not both numbers. -/
def joined (op : BinaryOp) (a b : Value) : Run Value :=
  match op, a, b with
  | .add, a, b => Run.concat a b
  | .mul, a, .int n => repeatSequence a n
  | .mul, .int n, b => repeatSequence b n
  | op, a, b => fail (.operands op.symbol [a.kind, b.kind])

theorem agree_joined (op : BinaryOp) (h : Like s t v w) (h' : Like s t x y) :
    Agree s t Like (joined op v x) (joined op w y) := by
  have hkinds : RuntimeError.operands op.symbol [v.kind, x.kind] =
      .operands op.symbol [w.kind, y.kind] := by
    rw [h.kind, h'.kind]
  cases op with
  | add => exact agree_concat h h'
  | mul =>
    cases h'.likeBy with
    | int n => exact agree_repeatSequence h n
    | _ =>
      cases h.likeBy with
      | int n => exact agree_repeatSequence h' n
      | _ => exact agree_fail rfl
  | _ => exact agree_fail hkinds

theorem agree_binary (op : BinaryOp) (h : Like s t v w) (h' : Like s t x y) :
    Agree s t Like (binary op v x) (binary op w y) := by
  have hjoined := agree_joined op h h'
  cases h.likeBy with
  | int i =>
    cases h'.likeBy with
    | int j => exact agree_scalar fun _ => like_integer
    | float g => exact agree_scalar fun _ => like_real
    | _ => exact hjoined
  | float f =>
    cases h'.likeBy with
    | int j => exact agree_scalar fun _ => like_real
    | float g => exact agree_scalar fun _ => like_real
    | _ => exact hjoined
  | _ => exact hjoined

/-! ## Comparisons -/

theorem agree_dictKey (h : Like s t v w) : Agree s t Equal (dictKey v) (dictKey w) := by
  refine agree_get ?_
  rw [h.key?]
  split
  · exact agree_pure rfl
  · exact agree_fail (congrArg _ h.kind)

theorem agree_dictGet? {r r' : Ref} (hr : s.Shows r (.dict d)) (hr' : t.Shows r' (.dict d'))
    (hd : LikeDict s t d d') (h : Like s t v w) :
    Agree s t (fun s t => Option.Rel (Like s t)) (dictGet? r v) (dictGet? r' w) := by
  refine agree_bind (agree_dictKey h) fun {s' t' hash hash'} hs ht hsame =>
    agree_get (agree_pure ?_)
  subst hsame
  rw [dict_of_shows (hs.shows hr), dict_of_shows (ht.shows hr')]
  exact View.find?_congr (LikeDict.keeps hd hs ht) hash

/-- What is alike does not contain itself, so that it can be compared. -/
theorem Like.equal_isSome (h : Like s t v w) (x : Value) : (s.heap.equal v x).isSome = true :=
  let ⟨_, hlevel⟩ := h
  Heap.equal_isSome hlevel.within x

theorem agree_ofComparison {α : Type} {x y : Option α} (hx : x.isSome = true) (heq : x = y) :
    Agree s t Equal (ofComparison x) (ofComparison y) := by
  obtain ⟨a, rfl⟩ := Option.isSome_iff_exists.mp hx
  exact heq ▸ agree_pure rfl

theorem agree_contains (h : Like s t v w) (h' : Like s t x y) :
    Agree s t Equal (contains v x) (contains w y) := by
  have hkinds : RuntimeError.operands CompareOp.isIn.symbol [x.kind, v.kind] =
      .operands CompareOp.isIn.symbol [y.kind, w.kind] := by
    rw [h.kind, h'.kind]
  have hany : ∀ {items items' : List Value}, LikeAll s t items items' →
      Agree s t Equal (ofComparison (items.anyM fun v => s.heap.equal v x))
        (ofComparison (items'.anyM fun v => t.heap.equal v y)) := by
    intro items items' hitems
    refine agree_ofComparison (View.anyM_isSome fun v hv => ?_) ?_
    · obtain ⟨_, hlike⟩ := Node.exists_of_forall₂ hitems v hv
      exact hlike.equal_isSome x
    · induction hitems with
      | nil => rfl
      | cons hfirst _ ih => rw [anyM, anyM, ih, hfirst.equal h']
  refine agree_get ?_
  cases h.likeBy with
  | str a =>
    cases h'.likeBy with
    | str b => exact agree_pure rfl
    | _ => exact agree_fail rfl
  | list hr hr' hitems =>
    have hall := hany hitems
    rwa [← list_of_shows hr, ← list_of_shows hr'] at hall
  | tuple hr hr' hitems =>
    have hall := hany hitems
    rwa [← tuple_of_shows hr, ← tuple_of_shows hr'] at hall
  | dict hr hr' hentries =>
    refine agree_bind (agree_dictGet? hr hr' hentries h') fun _ _ hfound => agree_pure ?_
    cases hfound <;> rfl
  | _ => exact agree_fail hkinds

theorem agree_compareOrder (symbol : Text) (test : Ordering → Bool) (h : Like s t v w)
    (h' : Like s t x y) :
    Agree s t Like (compareOrder symbol test v x) (compareOrder symbol test w y) := by
  have hsome : (s.heap.order v x).isSome = true :=
    let ⟨_, hlevel⟩ := h
    Heap.order_isSome hlevel.within x
  refine agree_get (agree_bind (agree_ofComparison hsome (h.order h')) fun _ _ hsame => ?_)
  rw [hsame, h.kind, h'.kind]
  split
  · exact agree_pure (like_bool ..)
  · exact agree_fail rfl

/-- Comparisons other than tests for identity cannot tell what is alike apart. -/
theorem agree_compare {op : CompareOp} (his : op ≠ .is) (hisNot : op ≠ .isNot) (h : Like s t v w)
    (h' : Like s t x y) : Agree s t Like (compare op v x) (compare op w y) := by
  have hequal : Agree s t Equal (ofComparison (s.heap.equal v x))
      (ofComparison (t.heap.equal w y)) := agree_ofComparison (h.equal_isSome x) (h.equal h')
  cases op with
  | eq | ne =>
    refine agree_get (agree_bind hequal fun _ _ hsame => ?_)
    subst hsame
    exact agree_pure (like_bool ..)
  | lt | le | gt | ge => exact agree_compareOrder _ _ h h'
  | isIn | notIn =>
    refine agree_bind (agree_contains h' h) fun _ _ hsame => ?_
    subst hsame
    exact agree_pure (like_bool ..)
  | is => exact absurd rfl his
  | isNot => exact absurd rfl hisNot

/-! ## Items -/

theorem bound_congr (what : Text) (h : Like s t v w) :
    Slicing.bound what v = Slicing.bound what w := by
  cases h.likeBy <;> rfl

theorem rel_getElem? (h : Forall₂ R as bs) (i : Nat) : Option.Rel R as[i]? bs[i]? := by
  induction h generalizing i with
  | nil => exact .none
  | cons hfirst _ ih =>
    cases i with
    | zero => exact .some hfirst
    | succ i => exact ih i

/-- The same places of sequences with related items. -/
theorem rel_select (h : Forall₂ R as bs) (places : List Int64) :
    Forall₂ R (Slicing.select as.toArray places) (Slicing.select bs.toArray places) := by
  induction places with
  | nil => exact .nil
  | cons i rest ih =>
    have hitem := rel_getElem? h i.toInt.toNat
    rw [Slicing.select, Slicing.select, filterMap_cons, filterMap_cons, getElem?_toArray,
      getElem?_toArray]
    generalize as[i.toInt.toNat]? = item, bs[i.toInt.toNat]? = item' at hitem
    cases hitem with
    | none => exact ih
    | some hitem => exact .cons hitem ih

theorem agree_items (ha : Like s t a a') (hb : Like s t b b') (hc : Like s t c c')
    (h : Forall₂ R as bs) :
    Agree s t (fun _ _ => Forall₂ R) (ofExcept (Slicing.items a b c as))
      (ofExcept (Slicing.items a' b' c' bs)) := by
  have hpositions : Slicing.positions a b c as.length = Slicing.positions a' b' c' bs.length := by
    simp only [Slicing.positions, bound_congr _ ha, bound_congr _ hb, bound_congr _ hc, h.length_eq]
  rw [Slicing.items, Slicing.items, hpositions]
  cases Slicing.positions a' b' c' bs.length with
  | error e => exact agree_fail rfl
  | ok places => exact agree_pure (rel_select h places)

theorem agree_slice (h : Like s t v w) (ha : Like s t a a') (hb : Like s t b b')
    (hc : Like s t c c') : Agree s t Like (slice v a b c) (slice w a' b' c') := by
  unfold slice
  cases h.likeBy with
  | str x =>
    have hsame : Forall₂ (· = ·) (Text.chars x) (Text.chars x) := forall₂_refl _
    refine agree_bind (agree_items ha hb hc hsame) fun _ _ hchars => ?_
    rw [forall₂_eq_eq_eq] at hchars
    subst hchars
    exact agree_pure (like_str ..)
  | list hr hr' hitems =>
    refine agree_get ?_
    rw [Heap.list, Heap.list, list_of_shows hr, list_of_shows hr']
    exact agree_bind (agree_items ha hb hc hitems) fun hs ht hpart =>
      agree_newList (LikeAll.keeps hpart hs ht)
  | tuple hr hr' hitems =>
    refine agree_get ?_
    rw [tuple_of_shows hr, tuple_of_shows hr']
    exact agree_bind (agree_items ha hb hc hitems) fun hs ht hpart =>
      agree_newTuple (LikeAll.keeps hpart hs ht)
  | _ => exact agree_fail rfl

theorem agree_indexOf (h : Like s t v w) (h' : Like s t x y) :
    Agree s t Equal (indexOf v x) (indexOf w y) := by
  have hkinds : RuntimeError.indexKind v.kind x.kind = .indexKind w.kind y.kind := by
    rw [h.kind, h'.kind]
  cases h'.likeBy with
  | int i => exact agree_pure rfl
  | bool b => exact agree_pure rfl
  | _ => exact agree_fail hkinds

theorem agree_itemAt (index : Int64) {as bs : Array α} (h : Forall₂ R as.toList bs.toList)
    (missing : RuntimeError) :
    Agree s t (fun _ _ => R) (itemAt index as missing) (itemAt index bs missing) := by
  have hsize : as.size = bs.size := h.length_eq
  unfold itemAt
  simp only [hsize]
  cases place? index bs.size with
  | none => exact agree_fail rfl
  | some i =>
    have hitem := rel_getElem? h i
    rw [Array.getElem?_toList, Array.getElem?_toList] at hitem
    simp only [Option.bind_some]
    generalize as[i]? = item, bs[i]? = item' at hitem
    cases hitem with
    | none => exact agree_fail rfl
    | some hitem => exact agree_pure hitem

/-- The item of a value at an index that is no slice. -/
def item (base index : Value) : Run Value := do
  match base with
  | .str s =>
    return .str (Text.encodeChar (← itemAt (← indexOf base index) (Text.chars s).toArray
      .textIndexRange))
  | .list r => itemAt (← indexOf base index) ((← get).listItems r) (.indexRange .list)
  | .tuple r => itemAt (← indexOf base index) ((← get).tuple r).toArray (.indexRange .tuple)
  | .dict r =>
    match ← dictGet? r index with
    | some v => pure v
    | none => fail (.missingKey ((← get).text index))
  | v => fail (.notSubscriptable v.kind)

theorem agree_item (h : Like s t v w) (h' : Like s t x y) :
    Agree s t Like (item v x) (item w y) := by
  have hindex := agree_indexOf h h'
  unfold item
  cases h.likeBy with
  | str a =>
    refine agree_bind hindex fun _ _ hsame => ?_
    subst hsame
    have hchars : Forall₂ (· = ·) (Text.chars a).toArray.toList (Text.chars a).toArray.toList :=
      forall₂_refl _
    refine agree_bind (agree_itemAt _ hchars _) fun _ _ hchar => ?_
    subst hchar
    exact agree_pure (like_str ..)
  | list hr hr' hitems =>
    refine agree_bind hindex fun hs ht hsame => agree_get ?_
    subst hsame
    rw [list_of_shows (hs.shows hr), list_of_shows (ht.shows hr')]
    exact Corresponds.imp_keeps (agree_itemAt _ (LikeAll.keeps hitems hs ht) _)
      fun hs ht hitem => hitem.keeps hs ht
  | tuple hr hr' hitems =>
    refine agree_bind hindex fun hs ht hsame => agree_get ?_
    subst hsame
    rw [tuple_of_shows (hs.shows hr), tuple_of_shows (ht.shows hr')]
    exact Corresponds.imp_keeps (agree_itemAt _ (LikeAll.keeps hitems hs ht) _)
      fun hs ht hitem => hitem.keeps hs ht
  | dict hr hr' hentries =>
    refine agree_bind (agree_dictGet? hr hr' hentries h') fun hs ht hfound => ?_
    cases hfound with
    | none => exact agree_get (agree_fail (congrArg _ (h'.keeps hs ht).text))
    | some hvalue => exact agree_pure hvalue
  | _ => exact agree_fail rfl

theorem agree_index (h : Like s t v w) (h' : Like s t x y) :
    Agree s t Like (index v x) (index w y) := by
  have hitem := agree_item h h'
  cases h'.likeBy with
  | slice hr hr' ha hb hc =>
    refine agree_get ?_
    rw [slice_of_shows hr, slice_of_shows hr']
    exact agree_slice h ha hb hc
  | _ => cases h.likeBy <;> exact hitem

/-! ## Dictionaries -/

theorem LikeDict.set (h : LikeDict s t d d') (hash : Text) (hkey : Like s t v w)
    (hvalue : Like s t x y) : LikeDict s t (d.set hash v x) (d'.set hash w y) := by
  have hany : ∀ {entries entries' : List Dict.Entry},
      Forall₂ (Dict.Entry.Like (Like s t)) entries entries' →
      entries.any (·.hash == hash) = entries'.any (·.hash == hash) := by
    intro entries entries' hentries
    induction hentries with
    | nil => rfl
    | cons hfirst _ ih => rw [any_cons, any_cons, ih, hfirst.hash]
  have hmap : Forall₂ (Dict.Entry.Like (Like s t))
      (d.latest.map fun e => if e.hash == hash then { e with value := x } else e)
      (d'.latest.map fun e => if e.hash == hash then { e with value := y } else e) := by
    rw [forall₂_map_left_iff, forall₂_map_right_iff]
    refine h.imp fun e e' he => ?_
    have htest : (e.hash == hash) = (e'.hash == hash) := by rw [he.hash]
    rw [htest]
    split
    · exact ⟨he.hash, he.key, hvalue⟩
    · exact he
  rw [LikeDict, Dict.latest_set, Dict.latest_set, hany h]
  split
  · exact hmap
  · exact .cons ⟨rfl, hkey, hvalue⟩ h

theorem agree_fillDict (hd : LikeDict s t d d') (h : LikeAll s t items items') :
    Agree s t LikeDict (fillDict d items) (fillDict d' items') := by
  fun_induction fillDict d items generalizing s t d' items' with
  | case1 d key value rest ih =>
    cases h with
    | cons hkey hmore =>
      cases hmore with
      | cons hvalue hrest =>
        refine agree_bind (agree_dictKey hkey) fun {s' t' hash hash'} hs ht hsame => ?_
        subst hsame
        exact ih hash (LikeDict.set (LikeDict.keeps hd hs ht) hash (hkey.keeps hs ht)
          (hvalue.keeps hs ht)) (LikeAll.keeps hrest hs ht)
  | case2 d items hshort =>
    cases h with
    | nil => exact agree_pure hd
    | cons _ hrest =>
      cases hrest with
      | nil => exact agree_pure hd
      | cons _ _ => exact (hshort _ _ _ rfl).elim

theorem agree_buildDict (h : LikeAll s t items items') :
    Agree s t Like (buildDict items) (buildDict items') :=
  agree_bind (agree_fillDict .nil h) fun _ _ hd => agree_newDict hd

end Values

end Window

end ExprBackend
