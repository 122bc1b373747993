import Mathlib.Data.Finset.Card
import Mathlib.Order.Interval.Finset.Nat
import ExprBackend.Proofs.Dictionaries
import ExprBackend.Proofs.Signature

/-! # Values that are alike

Two values, each in a heap of its own, are alike if they have the same scalars in
the same structure, and the same functions and objects. They need not have the
same places. What operations tell about a value by its text, its key, its order
and its equality to others is the same for values that are alike.

Likeness is followed down a number of levels. A value that does not contain itself
goes through every cell of its heap at most once on the way down, so as many levels
as the heap is looked at show all of it.

Some cells of a heap may be out of sight: no value that counts has them in it, so
they may change while all that is alike stays alike.
-/

namespace ExprBackend

open List

variable {R S : Value → Value → Prop} {a b c v w x : Value} {as as' bs bs' items : List Value}
  {d d' e e' : Dict} {level level' : Nat} {r : Ref}

/-- The value that a cell at a place belongs to. -/
def Cell.valueAt (r : Ref) : Cell → Value
  | .list _ => .list r
  | .tuple _ => .tuple r
  | .dict _ => .dict r
  | .slice _ _ _ => .slice r
  | .function _ => .function r
  | .object _ => .object r

namespace Heap

variable {h : Heap}

/-! ## All of a value -/

/-- The place of a value that consists of others. -/
def place : Value → Ref
  | .list r | .tuple r | .dict r | .slice r => r
  | _ => 0

/-- What a value has in it, one level down. -/
def contents (h : Heap) (v : Value) : List Value :=
  match v, h.cells[place v]? with
  | .list _, some (.list items) => items.toList
  | .tuple _, some (.tuple items) => items
  | .dict _, some (.dict d) => d.latest.flatMap fun e => [e.key, e.value]
  | .slice _, some (.slice start stop step) => [start, stop, step]
  | _, _ => []

/-- All of a value is within a number of levels. -/
def Within (h : Heap) : Nat → Value → Prop
  | 0, _ => False
  | level + 1, v => ∀ u ∈ h.contents v, h.Within level u

theorem Within.mono (hv : h.Within level v) (hle : level ≤ level') : h.Within level' v := by
  induction level generalizing level' v with
  | zero => exact hv.elim
  | succ level ih =>
    obtain ⟨level', rfl⟩ := Nat.exists_eq_add_of_le' (Nat.succ_le_of_lt (Nat.lt_of_lt_of_le
      (Nat.succ_pos level) hle))
    exact fun u hu => ih (hv u hu) (Nat.le_of_succ_le_succ hle)

/-- All of a value is within so many levels and one more, but not within fewer. -/
def Reaches (h : Heap) (level : Nat) (v : Value) : Prop :=
  h.Within (level + 1) v ∧ ¬h.Within level v

theorem Reaches.unique (hv : h.Reaches level v) (hv' : h.Reaches level' v) : level = level' := by
  have hle : ∀ {i j}, h.Reaches i v → h.Reaches j v → i ≤ j := fun hi hj =>
    Nat.le_of_not_lt fun hlt => hi.2 (hj.1.mono hlt)
  exact Nat.le_antisymm (hle hv hv') (hle hv' hv)

/-- A value that reaches below its first level has something in it that reaches one level less. -/
theorem Reaches.below (hv : h.Reaches (level + 1) v) : ∃ u ∈ h.contents v, h.Reaches level u := by
  by_contra hnone
  apply hv.2
  intro u hu
  by_contra hu'
  exact hnone ⟨u, hu, hv.1 u hu, hu'⟩

/-- A value with something in it is the one that the cell at its place belongs to. -/
theorem cell_of_contents (hv : h.contents v ≠ []) :
    ∃ cell, h.cells[place v]? = some cell ∧ v = cell.valueAt (place v) := by
  unfold contents at hv
  split at hv
  next hcell => exact ⟨_, hcell, rfl⟩
  next hcell => exact ⟨_, hcell, rfl⟩
  next hcell => exact ⟨_, hcell, rfl⟩
  next hcell => exact ⟨_, hcell, rfl⟩
  next => exact absurd rfl hv

theorem lt_of_contents (hv : h.contents v ≠ []) : place v < h.cells.size := by
  obtain ⟨cell, hcell, -⟩ := cell_of_contents hv
  exact (Array.getElem?_eq_some_iff.mp hcell).1

/-- Only one value with something in it has a given place. -/
theorem eq_of_contents (hv : h.contents v ≠ []) (hw : h.contents w ≠ [])
    (hplace : place v = place w) : v = w := by
  obtain ⟨cell, hcell, hvalue⟩ := cell_of_contents hv
  obtain ⟨cell', hcell', hvalue'⟩ := cell_of_contents hw
  rw [hplace, hcell', Option.some_inj] at hcell
  rw [hvalue, hvalue', hcell, hplace]

theorem levels_lt_pairLevels (h : Heap) : h.levels < h.pairLevels :=
  Nat.le_mul_of_pos_left _ (Nat.succ_pos _)

/-- A value that does not contain itself is shown as a whole when the heap is looked at. -/
theorem Within.levels (hv : h.Within level v) : h.Within h.levels v := by
  classical
  -- Below a value there is one that reaches each smaller level. All but the lowest of them have
  -- something in them, so they have different places, and there are no more places than cells.
  have hchain : ∀ {level : Nat} {v : Value}, h.Reaches level v → ∀ k ∈ Finset.Icc 1 level,
      ∃ u, h.contents u ≠ [] ∧ h.Reaches k u := by
    intro level
    induction level with
    | zero =>
      intro v _ k hk
      simp at hk
    | succ level ih =>
      intro v hv k hk
      obtain ⟨u, hu, hreaches⟩ := hv.below
      rcases Nat.lt_or_ge level k with hlast | hle
      · obtain rfl : k = level + 1 := Nat.le_antisymm (Finset.mem_Icc.mp hk).2 hlast
        exact ⟨v, ne_nil_of_mem hu, hv⟩
      · exact ih hreaches k (Finset.mem_Icc.mpr ⟨(Finset.mem_Icc.mp hk).1, hle⟩)
  have hbound : ∀ {level : Nat} {v : Value}, h.Reaches level v → level ≤ h.cells.size := by
    intro level v hv
    choose! below hcontents hreaches using hchain hv
    have hcard : (Finset.Icc 1 level).card ≤ (Finset.range h.cells.size).card := by
      refine Finset.card_le_card_of_injOn (fun k => place (below k)) (fun k hk => ?_) ?_
      · exact Finset.mem_coe.mpr (Finset.mem_range.mpr (lt_of_contents (hcontents k hk)))
      · intro i hi j hj hplace
        have hsame := eq_of_contents (hcontents i hi) (hcontents j hj) hplace
        exact (hreaches i hi).unique (hsame ▸ hreaches j hj)
    simpa using hcard
  by_contra hnot
  induction level with
  | zero => exact hv.elim
  | succ level ih =>
    by_cases hless : h.Within level v
    · exact ih hless
    · exact hnot (hv.mono (Nat.succ_le_succ (hbound ⟨hv, hless⟩)))

end Heap

/-! ## Likeness -/

/-- A heap of which some cells are out of sight. -/
structure Window where
  heap : Heap
  hidden : Ref → Prop
  hidden_lt : ∀ {r : Ref}, hidden r → r < heap.cells.size

variable {s s' t t' u : Window}

def Heap.window (h : Heap) : Window := ⟨h, fun _ => False, False.elim⟩

/-- Two entries have the same canonical key, and are related in their keys and their values. -/
structure Dict.Entry.Like (R : Value → Value → Prop) (e e' : Dict.Entry) : Prop where
  hash : e.hash = e'.hash
  key : R e.key e'.key
  value : R e.value e'.value

theorem Dict.Entry.Like.imp {e e' : Dict.Entry} (h : e.Like R e') (hRS : ∀ v w, R v w → S v w) :
    e.Like S e' :=
  ⟨h.hash, hRS _ _ h.key, hRS _ _ h.value⟩

namespace Window

def Shows (s : Window) (r : Ref) (cell : Cell) : Prop := s.heap.cells[r]? = some cell ∧ ¬s.hidden r

/-- All that was in sight still is. -/
structure Keeps (s t : Window) : Prop where
  shows : ∀ {r : Ref} {cell : Cell}, s.Shows r cell → t.Shows r cell

theorem Keeps.refl (s : Window) : s.Keeps s := ⟨fun hr => hr⟩

theorem Keeps.trans (h : s.Keeps t) (h' : t.Keeps u) : s.Keeps u :=
  ⟨fun hr => h'.shows (h.shows hr)⟩

/-- Two values are alike if what they have in them is related. -/
inductive LikeBy (s t : Window) (R : Value → Value → Prop) : Value → Value → Prop
  | none : LikeBy s t R .none .none
  | noReceiver : LikeBy s t R .noReceiver .noReceiver
  | bool (b : Bool) : LikeBy s t R (.bool b) (.bool b)
  | int (i : Int64) : LikeBy s t R (.int i) (.int i)
  | float (f : Float) : LikeBy s t R (.float f) (.float f)
  | str (x : Text) : LikeBy s t R (.str x) (.str x)
  | list {r r' : Ref} {items items' : Array Value} : s.Shows r (.list items) →
      t.Shows r' (.list items') → Forall₂ R items.toList items'.toList →
      LikeBy s t R (.list r) (.list r')
  | tuple {r r' : Ref} {items items' : List Value} : s.Shows r (.tuple items) →
      t.Shows r' (.tuple items') → Forall₂ R items items' → LikeBy s t R (.tuple r) (.tuple r')
  | dict {r r' : Ref} {d d' : Dict} : s.Shows r (.dict d) → t.Shows r' (.dict d') →
      Forall₂ (Dict.Entry.Like R) d.latest d'.latest → LikeBy s t R (.dict r) (.dict r')
  | slice {r r' : Ref} {a b c a' b' c' : Value} : s.Shows r (.slice a b c) →
      t.Shows r' (.slice a' b' c') → R a a' → R b b' → R c c' → LikeBy s t R (.slice r) (.slice r')
  | function {r : Ref} {f f' : Function} : s.Shows r (.function f) → t.Shows r (.function f') →
      f.name = f'.name → LikeBy s t R (.function r) (.function r)
  | object {r : Ref} {o o' : Object} : s.Shows r (.object o) → t.Shows r (.object o') →
      o.name = o'.name → LikeBy s t R (.object r) (.object r)

/-- Two values are alike, and all of them is within a number of levels. -/
def LikeTo (s t : Window) : Nat → Value → Value → Prop
  | 0 => fun _ _ => False
  | level + 1 => LikeBy s t (LikeTo s t level)

/-- Two values, each in a heap of its own, are alike. -/
def Like (s t : Window) (v w : Value) : Prop := ∃ level, LikeTo s t level v w

theorem contents_list {items : Array Value} (h : s.Shows r (.list items)) :
    s.heap.contents (.list r) = items.toList := by
  simp only [Heap.contents, Heap.place, h.1]

theorem contents_tuple (h : s.Shows r (.tuple items)) : s.heap.contents (.tuple r) = items := by
  simp only [Heap.contents, Heap.place, h.1]

theorem contents_dict (h : s.Shows r (.dict d)) :
    s.heap.contents (.dict r) = d.latest.flatMap fun e => [e.key, e.value] := by
  simp only [Heap.contents, Heap.place, h.1]

theorem contents_slice (h : s.Shows r (.slice a b c)) : s.heap.contents (.slice r) = [a, b, c] := by
  simp only [Heap.contents, Heap.place, h.1]

/-- It is enough to say more about what the values have in them. -/
theorem LikeBy.imp_contents (h : LikeBy s t R v w)
    (hRS : ∀ a ∈ s.heap.contents v, ∀ b, R a b → S a b) : LikeBy s t S v w := by
  cases h with
  | none => exact .none
  | noReceiver => exact .noReceiver
  | bool b => exact .bool b
  | int i => exact .int i
  | float f => exact .float f
  | str x => exact .str x
  | list hr hr' hitems =>
    rw [contents_list hr] at hRS
    exact .list hr hr' (Node.forall₂_imp_mem hitems fun a ha b _ => hRS a ha b)
  | tuple hr hr' hitems =>
    rw [contents_tuple hr] at hRS
    exact .tuple hr hr' (Node.forall₂_imp_mem hitems fun a ha b _ => hRS a ha b)
  | dict hr hr' hentries =>
    rw [contents_dict hr] at hRS
    refine .dict hr hr' (Node.forall₂_imp_mem hentries fun e he e' _ hentry => ?_)
    have hparts : ∀ a ∈ [e.key, e.value], ∀ b, R a b → S a b := fun a ha =>
      hRS a (mem_flatMap.mpr ⟨e, he, ha⟩)
    exact ⟨hentry.hash, hparts _ (by simp) _ hentry.key, hparts _ (by simp) _ hentry.value⟩
  | slice hr hr' ha hb hc =>
    rw [contents_slice hr] at hRS
    exact .slice hr hr' (hRS _ (by simp) _ ha) (hRS _ (by simp) _ hb) (hRS _ (by simp) _ hc)
  | function hr hr' hname => exact .function hr hr' hname
  | object hr hr' hname => exact .object hr hr' hname

theorem LikeBy.imp (h : LikeBy s t R v w) (hs : s.Keeps s') (ht : t.Keeps t')
    (hRS : ∀ v w, R v w → S v w) : LikeBy s' t' S v w := by
  cases h.imp_contents fun a _ b => hRS a b with
  | none => exact .none
  | noReceiver => exact .noReceiver
  | bool b => exact .bool b
  | int i => exact .int i
  | float f => exact .float f
  | str x => exact .str x
  | list hr hr' hitems => exact .list (hs.shows hr) (ht.shows hr') hitems
  | tuple hr hr' hitems => exact .tuple (hs.shows hr) (ht.shows hr') hitems
  | dict hr hr' hentries => exact .dict (hs.shows hr) (ht.shows hr') hentries
  | slice hr hr' ha hb hc => exact .slice (hs.shows hr) (ht.shows hr') ha hb hc
  | function hr hr' hname => exact .function (hs.shows hr) (ht.shows hr') hname
  | object hr hr' hname => exact .object (hs.shows hr) (ht.shows hr') hname

/-- What is in one of the values is related to something. -/
theorem LikeBy.contents (h : LikeBy s t R v w) : ∀ a ∈ s.heap.contents v, ∃ b, R a b := by
  cases h with
  | list hr hr' hitems =>
    rw [contents_list hr]
    exact Node.exists_of_forall₂ hitems
  | tuple hr hr' hitems =>
    rw [contents_tuple hr]
    exact Node.exists_of_forall₂ hitems
  | dict hr hr' hentries =>
    rw [contents_dict hr]
    intro a ha
    obtain ⟨e, he, hpart⟩ := mem_flatMap.mp ha
    obtain ⟨e', hentry⟩ := Node.exists_of_forall₂ hentries e he
    exact Node.exists_of_forall₂ (.cons hentry.key (.cons hentry.value .nil)) a hpart
  | slice hr hr' ha hb hc =>
    rw [contents_slice hr]
    exact Node.exists_of_forall₂ (.cons ha (.cons hb (.cons hc .nil)))
  | _ =>
    intro a ha
    simp [Heap.contents] at ha

theorem LikeBy.symm (h : LikeBy s t R v w) (hRS : ∀ v w, R v w → S w v) : LikeBy t s S w v := by
  have hflip : ∀ {items items' : List Value}, Forall₂ R items items' →
      Forall₂ S items' items := fun hitems => (hitems.imp hRS).flip
  cases h with
  | none => exact .none
  | noReceiver => exact .noReceiver
  | bool b => exact .bool b
  | int i => exact .int i
  | float f => exact .float f
  | str x => exact .str x
  | list hr hr' hitems => exact .list hr' hr (hflip hitems)
  | tuple hr hr' hitems => exact .tuple hr' hr (hflip hitems)
  | dict hr hr' hentries =>
    refine .dict hr' hr (Forall₂.flip (hentries.imp fun e e' hentry => ?_))
    exact ⟨hentry.hash.symm, hRS _ _ hentry.key, hRS _ _ hentry.value⟩
  | slice hr hr' ha hb hc => exact .slice hr' hr (hRS _ _ ha) (hRS _ _ hb) (hRS _ _ hc)
  | function hr hr' hname => exact .function hr' hr hname.symm
  | object hr hr' hname => exact .object hr' hr hname.symm

theorem forall₂_comp {α β γ : Type} {R : α → β → Prop} {S : β → γ → Prop} {T : α → γ → Prop}
    {as : List α} {bs : List β} {cs : List γ} (h : Forall₂ R as bs) (h' : Forall₂ S bs cs)
    (hRST : ∀ a b c, R a b → S b c → T a c) : Forall₂ T as cs := by
  induction h generalizing cs with
  | nil =>
    cases h'
    exact .nil
  | cons hfirst _ ih =>
    cases h' with
    | cons hfirst' hrest' => exact .cons (hRST _ _ _ hfirst hfirst') (ih hrest')

theorem Shows.unique {cell cell' : Cell} (h : s.Shows r cell) (h' : s.Shows r cell') :
    cell = cell' :=
  Option.some.inj (h.1.symm.trans h'.1)

theorem LikeBy.trans {T : Value → Value → Prop} (h : LikeBy s t R v w) (h' : LikeBy t u S w x)
    (hRST : ∀ a b c, R a b → S b c → T a c) : LikeBy s u T v x := by
  cases h with
  | none | noReceiver | bool b | int i | float f | str y =>
    cases h'
    constructor
  | list hr hr' hitems =>
    cases h' with
    | list hs hs' hitems' =>
      cases hr'.unique hs
      exact .list hr hs' (forall₂_comp hitems hitems' hRST)
  | tuple hr hr' hitems =>
    cases h' with
    | tuple hs hs' hitems' =>
      cases hr'.unique hs
      exact .tuple hr hs' (forall₂_comp hitems hitems' hRST)
  | dict hr hr' hentries =>
    cases h' with
    | dict hs hs' hentries' =>
      cases hr'.unique hs
      refine .dict hr hs' (forall₂_comp hentries hentries' fun e e' e'' he he' => ?_)
      exact ⟨he.hash.trans he'.hash, hRST _ _ _ he.key he'.key, hRST _ _ _ he.value he'.value⟩
  | slice hr hr' ha hb hc =>
    cases h' with
    | slice hs hs' ha' hb' hc' =>
      cases hr'.unique hs
      exact .slice hr hs' (hRST _ _ _ ha ha') (hRST _ _ _ hb hb') (hRST _ _ _ hc hc')
  | function hr hr' hname =>
    cases h' with
    | function hs hs' hname' =>
      cases hr'.unique hs
      exact .function hr hs' (hname.trans hname')
  | object hr hr' hname =>
    cases h' with
    | object hs hs' hname' =>
      cases hr'.unique hs
      exact .object hr hs' (hname.trans hname')

namespace LikeTo

theorem keeps (h : LikeTo s t level v w) (hs : s.Keeps s') (ht : t.Keeps t') :
    LikeTo s' t' level v w := by
  induction level generalizing v w with
  | zero => exact h
  | succ level ih => exact h.imp hs ht fun _ _ => ih

theorem symm (h : LikeTo s t level v w) : LikeTo t s level w v := by
  induction level generalizing v w with
  | zero => exact h
  | succ level ih => exact h.symm fun _ _ => ih

/-- Likeness to something that is alike goes as far down as either of the two. -/
theorem trans (h : LikeTo s t level v w) (h' : LikeTo t u level' w x) : LikeTo s u level v x := by
  induction level generalizing level' v w x with
  | zero => exact h
  | succ level ih =>
    cases level' with
    | zero => exact h'.elim
    | succ level' => exact LikeBy.trans h h' fun _ _ _ => ih

/-- All of a value that is like another is within as many levels. -/
theorem within (h : LikeTo s t level v w) : s.heap.Within level v := by
  induction level generalizing v w with
  | zero => exact h
  | succ level ih =>
    intro a ha
    obtain ⟨b, hab⟩ := LikeBy.contents h a ha
    exact ih hab

/-- Likeness goes no further down than one of the values does. -/
theorem of_within (h : LikeTo s t level v w) (hv : s.heap.Within level' v) :
    LikeTo s t level' v w := by
  induction level' generalizing level v w with
  | zero => exact hv
  | succ level' ih =>
    cases level with
    | zero => exact h.elim
    | succ level => exact LikeBy.imp_contents h fun a ha b hab => ih hab (hv a ha)

/-- Looking at either heap shows all that is alike. -/
theorem levels (h : LikeTo s t level v w) :
    LikeTo s t (min s.heap.levels t.heap.levels) v w := by
  rcases Nat.le_total s.heap.levels t.heap.levels with hle | hle
  · rw [Nat.min_eq_left hle]
    exact h.of_within h.within.levels
  · rw [Nat.min_eq_right hle]
    exact (h.symm.of_within h.symm.within.levels).symm

end LikeTo

namespace Like

theorem keeps (h : Like s t v w) (hs : s.Keeps s') (ht : t.Keeps t') : Like s' t' v w :=
  let ⟨level, hlevel⟩ := h
  ⟨level, hlevel.keeps hs ht⟩

theorem symm (h : Like s t v w) : Like t s w v :=
  let ⟨level, hlevel⟩ := h
  ⟨level, hlevel.symm⟩

theorem trans (h : Like s t v w) (h' : Like t u w x) : Like s u v x :=
  let ⟨level, hlevel⟩ := h
  let ⟨_, hlevel'⟩ := h'
  ⟨level, hlevel.trans hlevel'⟩

/-- Values that are alike are alike in what they have in them. -/
theorem likeBy (h : Like s t v w) : LikeBy s t (Like s t) v w := by
  obtain ⟨_ | level, hlevel⟩ := h
  · exact hlevel.elim
  · exact hlevel.imp (.refl s) (.refl t) fun _ _ hab => ⟨level, hab⟩

end Like

/-- Values that are alike in what they have in them are alike: as many levels as the heaps are
looked at are enough for all of it. -/
theorem LikeBy.like (h : LikeBy s t (Like s t) v w) : Like s t v w :=
  ⟨min s.heap.levels t.heap.levels + 1, h.imp (.refl s) (.refl t) fun _ _ ⟨_, hab⟩ => hab.levels⟩

end Window

/-! ## What is told about values -/

/-- Two views are alike if what they show one level down is related. -/
inductive View.Like (R : Value → Value → Prop) : View → View → Prop
  | none : Like R .none .none
  | bool (b : Bool) : Like R (.bool b) (.bool b)
  | int (i : Int64) : Like R (.int i) (.int i)
  | float (f : Float) : Like R (.float f) (.float f)
  | str (x : Text) : Like R (.str x) (.str x)
  | list {r r' : Ref} {items items' : List Value} : Forall₂ R items items' →
      Like R (.list r items) (.list r' items')
  | tuple {items items' : List Value} : Forall₂ R items items' →
      Like R (.tuple items) (.tuple items')
  | dict {r r' : Ref} {d d' : Dict} : Forall₂ (Dict.Entry.Like R) d.latest d'.latest →
      Like R (.dict r d) (.dict r' d')
  | slice {a b c a' b' c' : Value} : R a a' → R b b' → R c c' →
      Like R (.slice a b c) (.slice a' b' c')
  | function (r : Ref) (name : Text) : Like R (.function r name) (.function r name)
  | object (r : Ref) (name : Text) : Like R (.object r name) (.object r name)

namespace Window

theorem list_of_shows {items : Array Value} (h : s.Shows r (.list items)) :
    s.heap.listItems r = items := by
  rw [Heap.listItems, h.1]

theorem tuple_of_shows (h : s.Shows r (.tuple items)) : s.heap.tuple r = items := by
  rw [Heap.tuple, h.1]

theorem dict_of_shows (h : s.Shows r (.dict d)) : s.heap.dict r = d := by
  rw [Heap.dict, h.1]

theorem slice_of_shows (h : s.Shows r (.slice a b c)) : s.heap.slice r = (a, b, c) := by
  rw [Heap.slice, h.1]

theorem functionName_of_shows {f : Function} (h : s.Shows r (.function f)) :
    s.heap.functionName r = f.name := by
  rw [Heap.functionName, Heap.function?, h.1]
  rfl

theorem object_of_shows {o : Object} (h : s.Shows r (.object o)) : s.heap.object r = o := by
  rw [Heap.object, h.1]

theorem LikeBy.view (h : LikeBy s t R v w) : View.Like R (s.heap.view v) (t.heap.view w) := by
  cases h with
  | none => exact .none
  | noReceiver => exact .none
  | bool b => exact .bool b
  | int i => exact .int i
  | float f => exact .float f
  | str x => exact .str x
  | list hr hr' hitems =>
    simp only [Heap.view, Heap.list, list_of_shows hr, list_of_shows hr']
    exact .list hitems
  | tuple hr hr' hitems =>
    simp only [Heap.view, tuple_of_shows hr, tuple_of_shows hr']
    exact .tuple hitems
  | dict hr hr' hentries =>
    simp only [Heap.view, dict_of_shows hr, dict_of_shows hr']
    exact .dict hentries
  | slice hr hr' ha hb hc =>
    simp only [Heap.view, slice_of_shows hr, slice_of_shows hr']
    exact .slice ha hb hc
  | function hr hr' hname =>
    simp only [Heap.view, functionName_of_shows hr, functionName_of_shows hr', hname]
    exact .function ..
  | object hr hr' hname =>
    simp only [Heap.view, object_of_shows hr, object_of_shows hr', hname]
    exact .object ..

end Window

namespace View

variable {a b a' b' : View}

section Texts

variable {inner inner' : Value → Text → Text} (hinner : ∀ v w, R v w → inner v = inner' w)

include hinner

theorem Like.textThen (h : a.Like R b) : a.textThen inner = b.textThen inner' := by
  have hone : ∀ v w, R v w → ∀ rest, inner v rest = inner' w rest := fun v w hvw rest => by
    rw [hinner v w hvw]
  funext rest
  cases h with
  | list hitems => simp only [View.textThen, Text.joinThen_congr hone hitems]
  | tuple hitems =>
    -- A tuple of one item has a comma of its own.
    cases hitems with
    | nil => rfl
    | cons hfirst hrest =>
      cases hrest with
      | nil => simp only [View.textThen, hinner _ _ hfirst]
      | cons hsecond hmore =>
        simp only [View.textThen, Text.joinThen_congr hone (.cons hfirst (.cons hsecond hmore))]
  | dict hentries =>
    have hentry : ∀ e e', Dict.Entry.Like R e e' → ∀ rest,
        entryThen inner e rest = entryThen inner' e' rest := fun e e' he rest => by
      rw [entryThen, entryThen, hinner _ _ he.key, hinner _ _ he.value]
    simp only [View.textThen, Dict.entries, Text.joinThen_congr hentry (rel_reverse hentries)]
  | slice ha hb hc => simp only [View.textThen, hinner _ _ ha, hinner _ _ hb, hinner _ _ hc]
  | _ => rfl

end Texts

section Keys

variable {inner inner' : Value → Option Text} (hinner : ∀ v w, R v w → inner v = inner' w)

include hinner

theorem keys?_congr {items' : List Value} (h : Forall₂ R items items') :
    keys? inner items = keys? inner' items' := by
  induction h with
  | nil => rfl
  | cons hfirst _ ih => rw [keys?, keys?, hinner _ _ hfirst, ih]

theorem Like.key? (h : a.Like R b) : a.key? inner = b.key? inner' := by
  cases h with
  | tuple hitems => rw [View.key?, View.key?, keys?_congr hinner hitems]
  | _ => rfl

end Keys

/-- Dictionaries that are alike have values that are related under the same keys. -/
theorem find?_congr (h : Forall₂ (Dict.Entry.Like R) d.latest d'.latest) (hash : Text) :
    Option.Rel R (d.find? hash) (d'.find? hash) := by
  have hfind : ∀ {entries entries' : List Dict.Entry},
      Forall₂ (Dict.Entry.Like R) entries entries' →
      Option.Rel R ((entries.find? (·.hash == hash)).map Dict.Entry.value)
        ((entries'.find? (·.hash == hash)).map Dict.Entry.value) := by
    intro entries entries' hentries
    induction hentries with
    | nil => exact .none
    | cons hfirst _ ih =>
      rw [find?_cons, find?_cons, ← hfirst.hash]
      split
      · exact .some hfirst.value
      · exact ih
  rw [Dict.find?_eq, Dict.find?_eq]
  exact hfind h

theorem allM_congr {α β : Type} {f : α → Option Bool} {g : β → Option Bool} {l : List α}
    {l' : List β} (h : Forall₂ (fun x y => f x = g y) l l') : l.allM f = l'.allM g := by
  induction h with
  | nil => rfl
  | cons hfirst _ ih => rw [allM, allM, hfirst, ih]

section Equality

variable {key? key?' : Value → Option Text} {inner inner' : Value → Value → Option Bool}
  (hkey : ∀ v w, R v w → key? v = key?' w)
  (hinner : ∀ v w x y, R v w → R x y → inner v x = inner' w y)

include hinner

theorem equalItems_congr (ha : Forall₂ R as as') (hb : Forall₂ R bs bs') :
    equalItems inner as bs = equalItems inner' as' bs' := by
  have hzip : Forall₂ (fun p q => inner p.1 p.2 = inner' q.1 q.2) (as.zip bs) (as'.zip bs') := by
    induction ha generalizing bs bs' with
    | nil => exact .nil
    | cons hfirst _ ih =>
      cases hb with
      | nil => exact .nil
      | cons hfirst' hrest' => exact .cons (hinner _ _ _ _ hfirst hfirst') (ih hrest')
  rw [equalItems, equalItems, ha.length_eq, hb.length_eq]
  exact if_congr .rfl (allM_congr hzip) rfl

include hkey

theorem equalEntries_congr (hd : Forall₂ (Dict.Entry.Like R) d.latest d'.latest)
    (he : Forall₂ (Dict.Entry.Like R) e.latest e'.latest) :
    equalEntries key? inner d e = equalEntries key?' inner' d' e' := by
  rw [equalEntries, equalEntries, Dict.size_eq, Dict.size_eq, Dict.size_eq, Dict.size_eq,
    hd.length_eq, he.length_eq]
  refine if_congr .rfl (allM_congr ((rel_reverse hd).imp fun first first' hfirst => ?_)) rfl
  rw [hkey _ _ hfirst.key]
  cases key?' first'.key with
  | none => rfl
  | some hash =>
    have hfound := find?_congr he hash
    simp only [Option.bind_some]
    generalize e.find? hash = other, e'.find? hash = other' at hfound
    cases hfound with
    | none => rfl
    | some hvalue => exact hinner _ _ _ _ hfirst.value hvalue

theorem Like.equal (ha : a.Like R a') (hb : b.Like R b') :
    a.equal key? inner b = a'.equal key?' inner' b' := by
  cases ha with
  | list hitems =>
    cases hb with
    | list hitems' => exact equalItems_congr hinner hitems hitems'
    | _ => rfl
  | tuple hitems =>
    cases hb with
    | tuple hitems' => exact equalItems_congr hinner hitems hitems'
    | _ => rfl
  | dict hentries =>
    cases hb with
    | dict hentries' => exact equalEntries_congr hkey hinner hentries hentries'
    | _ => rfl
  | slice hstart hstop hstep =>
    cases hb with
    | slice hstart' hstop' hstep' =>
      exact equalItems_congr hinner (.cons hstart (.cons hstop (.cons hstep .nil)))
        (.cons hstart' (.cons hstop' (.cons hstep' .nil)))
    | _ => rfl
  | _ => cases hb <;> rfl

end Equality

section Order

variable {equal equal' : Value → Value → Option Bool}
  {inner inner' : Value → Value → Option (Except RuntimeError Ordering)}
  (hequal : ∀ v w x y, R v w → R x y → equal v x = equal' w y)
  (hinner : ∀ v w x y, R v w → R x y → inner v x = inner' w y)

include hequal hinner

theorem orderItems_congr (ha : Forall₂ R as as') (hb : Forall₂ R bs bs') :
    orderItems equal inner as bs = orderItems equal' inner' as' bs' := by
  induction ha generalizing bs bs' with
  | nil => cases hb <;> rfl
  | cons hfirst _ ih =>
    cases hb with
    | nil => rfl
    | cons hfirst' hrest' =>
      rw [orderItems, orderItems, hequal _ _ _ _ hfirst hfirst', hinner _ _ _ _ hfirst hfirst',
        ih hrest']

theorem Like.order (ha : a.Like R a') (hb : b.Like R b') :
    a.order equal inner b = a'.order equal' inner' b' := by
  cases ha with
  | list hitems =>
    cases hb with
    | list hitems' => exact orderItems_congr hequal hinner hitems hitems'
    | _ => rfl
  | tuple hitems =>
    cases hb with
    | tuple hitems' => exact orderItems_congr hequal hinner hitems hitems'
    | _ => rfl
  | _ => cases hb <;> rfl

end Order

end View

namespace Window

variable {y : Value}

section Levels

variable {n m : Nat}

theorem exists_succ_of_succ_le (h : level + 1 ≤ n) : ∃ k, n = k + 1 ∧ level ≤ k :=
  ⟨n - 1, by omega, by omega⟩

theorem LikeTo.textTo (h : LikeTo s t level v w) (hn : level ≤ n) (hm : level ≤ m) :
    s.heap.textTo n v = t.heap.textTo m w := by
  induction level generalizing n m v w with
  | zero => exact h.elim
  | succ level ih =>
    obtain ⟨n, rfl, hn'⟩ := exists_succ_of_succ_le hn
    obtain ⟨m, rfl, hm'⟩ := exists_succ_of_succ_le hm
    exact (LikeBy.view h).textThen fun a b hab => ih hab hn' hm'

theorem LikeTo.keyTo? (h : LikeTo s t level v w) (hn : level ≤ n) (hm : level ≤ m) :
    s.heap.keyTo? n v = t.heap.keyTo? m w := by
  induction level generalizing n m v w with
  | zero => exact h.elim
  | succ level ih =>
    obtain ⟨n, rfl, hn'⟩ := exists_succ_of_succ_le hn
    obtain ⟨m, rfl, hm'⟩ := exists_succ_of_succ_le hm
    exact (LikeBy.view h).key? fun a b hab => ih hab hn' hm'

theorem Like.key? (h : Like s t v w) : s.heap.key? v = t.heap.key? w :=
  let ⟨_, hlevel⟩ := h
  hlevel.levels.keyTo? (Nat.min_le_left ..) (Nat.min_le_right ..)

theorem LikeTo.equalTo (h : LikeTo s t level v w) (h' : LikeTo s t level x y) (hn : level ≤ n)
    (hm : level ≤ m) : s.heap.equalTo n v x = t.heap.equalTo m w y := by
  induction level generalizing n m v w x y with
  | zero => exact h.elim
  | succ level ih =>
    obtain ⟨n, rfl, hn'⟩ := exists_succ_of_succ_le hn
    obtain ⟨m, rfl, hm'⟩ := exists_succ_of_succ_le hm
    exact (LikeBy.view h).equal (fun a b hab => Like.key? ⟨level, hab⟩)
      (fun a b c d hab hcd => ih hab hcd hn' hm') (LikeBy.view h')

theorem Like.equal (h : Like s t v w) (h' : Like s t x y) : s.heap.equal v x = t.heap.equal w y :=
  let ⟨_, hlevel⟩ := h
  let ⟨_, hlevel'⟩ := h'
  hlevel.levels.equalTo hlevel'.levels (Nat.le_trans (Nat.min_le_left ..)
    (Heap.levels_lt_pairLevels _).le)
    (Nat.le_trans (Nat.min_le_right ..) (Heap.levels_lt_pairLevels _).le)

theorem LikeTo.orderTo (h : LikeTo s t level v w) (h' : LikeTo s t level x y) (hn : level ≤ n)
    (hm : level ≤ m) : s.heap.orderTo n v x = t.heap.orderTo m w y := by
  induction level generalizing n m v w x y with
  | zero => exact h.elim
  | succ level ih =>
    obtain ⟨n, rfl, hn'⟩ := exists_succ_of_succ_le hn
    obtain ⟨m, rfl, hm'⟩ := exists_succ_of_succ_le hm
    exact (LikeBy.view h).order (fun a b c d hab hcd => Like.equal ⟨level, hab⟩ ⟨level, hcd⟩)
      (fun a b c d hab hcd => ih hab hcd hn' hm') (LikeBy.view h')

end Levels

namespace Like

theorem kind (h : Like s t v w) : v.kind = w.kind := by cases h.likeBy <;> rfl

theorem text (h : Like s t v w) : s.heap.text v = t.heap.text w := by
  obtain ⟨_, hlevel⟩ := h
  rw [Heap.text, Heap.text, hlevel.levels.textTo (Nat.min_le_left ..) (Nat.min_le_right ..)]

theorem order (h : Like s t v w) (h' : Like s t x y) : s.heap.order v x = t.heap.order w y :=
  let ⟨_, hlevel⟩ := h
  let ⟨_, hlevel'⟩ := h'
  hlevel.levels.orderTo hlevel'.levels (Nat.le_trans (Nat.min_le_left ..)
    (Heap.levels_lt_pairLevels _).le)
    (Nat.le_trans (Nat.min_le_right ..) (Heap.levels_lt_pairLevels _).le)

theorem truthy (h : Like s t v w) : s.heap.truthy v = t.heap.truthy w := by
  have hempty : ∀ {α : Type} {R : α → α → Prop} {as bs : List α}, Forall₂ R as bs →
      as.isEmpty = bs.isEmpty := by
    intro α R as bs hforall
    cases hforall <;> rfl
  cases h.likeBy with
  | list hr hr' hitems =>
    rw [Heap.truthy, Heap.truthy, list_of_shows hr, list_of_shows hr', ← Array.isEmpty_toList,
      ← Array.isEmpty_toList, hempty hitems]
  | tuple hr hr' hitems =>
    rw [Heap.truthy, Heap.truthy, tuple_of_shows hr, tuple_of_shows hr', hempty hitems]
  | dict hr hr' hentries =>
    rw [Heap.truthy, Heap.truthy, dict_of_shows hr, dict_of_shows hr', Dict.size_eq, Dict.size_eq,
      hentries.length_eq]
  | _ => rfl

end Like

end Window

end ExprBackend
