import ExprBackend.Proofs.Perform
import ExprBackend.Proofs.Quotation
import Mathlib.Data.List.Forall2
import Mathlib.Data.List.Nodup

/-! # Heaps that hold the same at other places

Two runs that differ in the cells they make for themselves come to heaps in which
everything else lies at other places. A list of places says where: the cell with a
number in the one heap is at the place with that number in the other. Cells of the
other heap that are no such place are out of sight; only the run that made them
knows of them.
-/

namespace ExprBackend

open List

/-! ## Values and cells -/

namespace Value

/-- The value that a value is in the other heap. -/
def moved? (places : List Ref) : Value → Option Value
  | .list r => places[r]?.map .list
  | .tuple r => places[r]?.map .tuple
  | .dict r => places[r]?.map .dict
  | .slice r => places[r]?.map .slice
  | .function r => places[r]?.map .function
  | .object r => places[r]?.map .object
  | v => some v

/-- A value is another in the other heap. -/
def Moves (places : List Ref) (v w : Value) : Prop := v.moved? places = some w

variable {places places' : List Ref} {v w : Value}

/-- What lies somewhere still lies there when there are more places. -/
theorem Moves.mono (h : v.Moves places w) (hplaces : places <+: places') : v.Moves places' w := by
  have hget : ∀ {r r' : Ref}, places[r]? = some r' → places'[r]? = some r' := by
    intro r r' hr
    obtain ⟨rest, rfl⟩ := hplaces
    rw [List.getElem?_append_left (List.getElem?_eq_some_iff.mp hr).1]
    exact hr
  unfold Moves moved? at *
  cases v <;> dsimp only at h ⊢
  case list | tuple | dict | slice | function | object =>
    obtain ⟨r', hr, rfl⟩ := Option.map_eq_some_iff.mp h
    rw [hget hr]
    rfl
  all_goals exact h

theorem Moves.kind (h : v.Moves places w) : w.kind = v.kind := by
  unfold Moves moved? at h
  cases v <;> dsimp only at h
  case list | tuple | dict | slice | function | object =>
    obtain ⟨r', -, rfl⟩ := Option.map_eq_some_iff.mp h
    rfl
  all_goals
    obtain rfl := Option.some.inj h
    rfl

end Value

/-- A keyword argument is another in the other heap. -/
structure Keyword.Moves (places : List Ref) (k k' : Keyword) : Prop where
  name : k'.name = k.name
  value : k.value.Moves places k'.value

def Bindings.Moves (places : List Ref) (b b' : Bindings) : Prop :=
  Forall₂ (fun e e' => e'.1 = e.1 ∧ e.2.Moves places e'.2) b.entries b'.entries

inductive Function.Moves (places : List Ref) : Function → Function → Prop
  | builtin (name : Text) (operation : Builtin) :
      Moves places (.builtin name operation) (.builtin name operation)
  | bound (name : Text) {receiver receiver' callee callee' : Value} :
      receiver.Moves places receiver' →
      callee.Moves places callee' → Moves places (.bound name receiver callee)
        (.bound name receiver' callee')
  | compiled {name : Text} {params : List Text} {chunk : Ref} {globals globals' : Bindings} :
      globals.Moves places globals' →
      Moves places (.compiled ⟨name, params, chunk, globals⟩)
        (.compiled ⟨name, params, chunk, globals'⟩)

/-- An entry of a dictionary has the same key and the same value in the other heap. The canonical
text of the key may depend on places. -/
structure Dict.Entry.Moves (places : List Ref) (e e' : Dict.Entry) : Prop where
  key : e.key.Moves places e'.key
  value : e.value.Moves places e'.value

inductive Cell.Moves (places : List Ref) : Cell → Cell → Prop
  | list {items items' : Array Value} : Forall₂ (Value.Moves places) items.toList items'.toList →
      Moves places (.list items) (.list items')
  | tuple {items items' : List Value} : Forall₂ (Value.Moves places) items items' →
      Moves places (.tuple items) (.tuple items')
  | dict {d d' : Dict} : Forall₂ (Dict.Entry.Moves places) d.latest d'.latest →
      Moves places (.dict d) (.dict d')
  | slice {a b c a' b' c' : Value} : a.Moves places a' → b.Moves places b' → c.Moves places c' →
      Moves places (.slice a b c) (.slice a' b' c')
  | function {f f' : Function} : f.Moves places f' → Moves places (.function f) (.function f')
  | object (name : Text) {attributes attributes' methods methods' : Bindings} :
      attributes.Moves places attributes' → methods.Moves places methods' →
      Moves places (.object ⟨name, attributes, methods⟩) (.object ⟨name, attributes', methods'⟩)

section Mono

variable {places places' : List Ref}

theorem Bindings.Moves.mono {b b' : Bindings} (h : b.Moves places b')
    (hplaces : places <+: places') : b.Moves places' b' :=
  Forall₂.imp (fun _ _ he => ⟨he.1, he.2.mono hplaces⟩) h

theorem Function.Moves.mono {f f' : Function} (h : f.Moves places f')
    (hplaces : places <+: places') : f.Moves places' f' := by
  cases h with
  | builtin name operation => exact .builtin name operation
  | bound name hreceiver hcallee =>
    exact .bound name (hreceiver.mono hplaces) (hcallee.mono hplaces)
  | compiled hglobals => exact .compiled (hglobals.mono hplaces)

theorem Cell.Moves.mono {cell cell' : Cell} (h : cell.Moves places cell')
    (hplaces : places <+: places') : cell.Moves places' cell' := by
  cases h with
  | list hitems => exact .list (hitems.imp fun _ _ h => h.mono hplaces)
  | tuple hitems => exact .tuple (hitems.imp fun _ _ h => h.mono hplaces)
  | dict hentries =>
    exact .dict (hentries.imp fun _ _ h => ⟨h.key.mono hplaces, h.value.mono hplaces⟩)
  | slice ha hb hc => exact .slice (ha.mono hplaces) (hb.mono hplaces) (hc.mono hplaces)
  | function hf => exact .function (hf.mono hplaces)
  | object name hattributes hmethods =>
    exact .object name (hattributes.mono hplaces) (hmethods.mono hplaces)

end Mono

/-- All that is in a heap is in another, at other places. -/
structure Heap.Moved (places : List Ref) (h h' : Heap) : Prop where
  length : places.length = h.cells.size
  distinct : places.Nodup
  cells : ∀ {r r' : Ref} {cell : Cell}, h.cells[r]? = some cell → places[r]? = some r' →
    ∃ cell', h'.cells[r']? = some cell' ∧ cell.Moves places cell'

namespace Heap.Moved

variable {places : List Ref} {h h' : Heap} {v w : Value} {r r' : Ref}

/-- A place holds what the cell with its number has become. -/
theorem cell (hmoved : h.Moved places h') (hr : places[r]? = some r') :
    ∃ cell cell', h.cells[r]? = some cell ∧ h'.cells[r']? = some cell' ∧
    cell.Moves places cell' := by
  have hlt : r < h.cells.size := hmoved.length ▸ (List.getElem?_eq_some_iff.mp hr).1
  obtain ⟨cell', hcell', hmoves⟩ := hmoved.cells (Array.getElem?_eq_getElem hlt) hr
  exact ⟨_, cell', Array.getElem?_eq_getElem hlt, hcell', hmoves⟩

/-- Places are cells of the other heap. -/
theorem lt_size (hmoved : h.Moved places h') (hr' : r' ∈ places) : r' < h'.cells.size := by
  obtain ⟨i, hi⟩ := mem_iff_getElem?.mp hr'
  obtain ⟨_, _, _, hcell, -⟩ := hmoved.cell hi
  exact (Array.getElem?_eq_some_iff.mp hcell).1

theorem list (hmoved : h.Moved places h') (hr : places[r]? = some r') :
    Forall₂ (Value.Moves places) (h.list r) (h'.list r') := by
  obtain ⟨cell, cell', hcell, hcell', hmoves⟩ := hmoved.cell hr
  unfold Heap.list Heap.listItems
  rw [hcell, hcell']
  cases hmoves with
  | list hitems => exact hitems
  | _ => exact .nil

theorem tuple (hmoved : h.Moved places h') (hr : places[r]? = some r') :
    Forall₂ (Value.Moves places) (h.tuple r) (h'.tuple r') := by
  obtain ⟨cell, cell', hcell, hcell', hmoves⟩ := hmoved.cell hr
  unfold Heap.tuple
  rw [hcell, hcell']
  cases hmoves with
  | tuple hitems => exact hitems
  | _ => exact .nil

theorem dict (hmoved : h.Moved places h') (hr : places[r]? = some r') :
    Forall₂ (Dict.Entry.Moves places) (h.dict r).latest (h'.dict r').latest := by
  obtain ⟨cell, cell', hcell, hcell', hmoves⟩ := hmoved.cell hr
  unfold Heap.dict
  rw [hcell, hcell']
  cases hmoves with
  | dict hentries => exact hentries
  | _ => exact .nil

theorem slice (hmoved : h.Moved places h') (hr : places[r]? = some r') :
    (h.slice r).1.Moves places (h'.slice r').1 ∧ (h.slice r).2.1.Moves places (h'.slice r').2.1 ∧
      (h.slice r).2.2.Moves places (h'.slice r').2.2 := by
  obtain ⟨cell, cell', hcell, hcell', hmoves⟩ := hmoved.cell hr
  unfold Heap.slice
  rw [hcell, hcell']
  cases hmoves with
  | slice ha hb hc => exact ⟨ha, hb, hc⟩
  | _ => exact ⟨rfl, rfl, rfl⟩

theorem object (hmoved : h.Moved places h') (hr : places[r]? = some r') :
    (h.object r).attributes.Moves places (h'.object r').attributes ∧
      (h.object r).methods.Moves places (h'.object r').methods := by
  obtain ⟨cell, cell', hcell, hcell', hmoves⟩ := hmoved.cell hr
  unfold Heap.object
  rw [hcell, hcell']
  cases hmoves with
  | object name hattributes hmethods => exact ⟨hattributes, hmethods⟩
  | _ => exact ⟨.nil, .nil⟩

/-- Sequences have the same items. -/
theorem items? (hmoved : h.Moved places h') (hv : v.Moves places w) :
    Option.Rel (Forall₂ (Value.Moves places)) (h.items? v) (h'.items? w) := by
  unfold Value.Moves Value.moved? at hv
  cases v <;> dsimp only at hv
  case list r =>
    obtain ⟨r', hr, rfl⟩ := Option.map_eq_some_iff.mp hv
    exact .some (hmoved.list hr)
  case tuple r =>
    obtain ⟨r', hr, rfl⟩ := Option.map_eq_some_iff.mp hv
    exact .some (hmoved.tuple hr)
  case dict | slice | function | object =>
    obtain ⟨r', hr, rfl⟩ := Option.map_eq_some_iff.mp hv
    exact .none
  all_goals
    obtain rfl := Option.some.inj hv
    exact .none

end Heap.Moved

theorem Bindings.Moves.get? {places : List Ref} {b b' : Bindings} (h : b.Moves places b')
    (name : Text) : Option.Rel (Value.Moves places) (b.get? name) (b'.get? name) := by
  obtain ⟨entries⟩ := b
  obtain ⟨entries'⟩ := b'
  unfold Bindings.Moves at h
  unfold Bindings.get?
  dsimp only at h ⊢
  induction h with
  | nil => exact .none
  | @cons e e' rest rest' hentry _ ih =>
    obtain ⟨bound, v⟩ := e
    obtain ⟨bound', v'⟩ := e'
    obtain ⟨hname, hvalue⟩ := hentry
    dsimp only at hname hvalue
    subst hname
    rw [lookup_cons, lookup_cons]
    split
    · exact .some hvalue
    · exact ih

/-! ## Evaluation and code side by side -/

/-- A heap has changed out of sight only. -/
structure Heap.Veils (places : List Ref) (h h' : Heap) : Prop where
  seen : ∀ r ∈ places, h'.cells[r]? = h.cells[r]?
  size : h.cells.size ≤ h'.cells.size
  chunks : h'.chunks = h.chunks
  journal : h'.journal = h.journal

namespace Heap.Moved

variable {places : List Ref} {h h' g : Heap}

theorem veiled (hmoved : h.Moved places h') (hveils : h'.Veils places g) : h.Moved places g where
  length := hmoved.length
  distinct := hmoved.distinct
  cells {r r' cell} hcell hr := by
    rw [hveils.seen r' (mem_of_getElem? hr)]
    exact hmoved.cells hcell hr

/-- A new cell in both heaps. -/
theorem alloc (hmoved : h.Moved places h') {cell cell' : Cell} (hcells : cell.Moves places cell') :
    (h.alloc cell).2.Moved (places ++ [h'.cells.size]) (h'.alloc cell').2 := by
  have hplaces : places <+: places ++ [h'.cells.size] := prefix_append _ _
  refine ⟨?_, ?_, fun {r r' old} hold hr => ?_⟩
  · simp [Heap.alloc, hmoved.length]
  · refine nodup_append.mpr ⟨hmoved.distinct, nodup_singleton _, fun r hr r' hr' heq => ?_⟩
    rw [heq, mem_singleton.mp hr'] at hr
    exact Nat.lt_irrefl _ (hmoved.lt_size hr)
  · by_cases hlt : r < h.cells.size
    · -- Cells that were there are where they were.
      have hcell : h.cells[r]? = some old := by
        rw [← hold]
        exact (Array.getElem?_eq_getElem hlt).trans (Array.getElem?_push_lt hlt).symm
      rw [getElem?_append_left (hmoved.length ▸ hlt)] at hr
      obtain ⟨new, hnew, hmoves⟩ := hmoved.cells hcell hr
      refine ⟨new, ?_, hmoves.mono hplaces⟩
      have hlt' := (Array.getElem?_eq_some_iff.mp hnew).1
      rw [← hnew]
      exact (Array.getElem?_push_lt hlt').trans (Array.getElem?_eq_getElem hlt').symm
    · obtain rfl : r = h.cells.size := by
        have hle := (Array.getElem?_eq_some_iff.mp hold).1
        simp only [Heap.alloc, Array.size_push] at hle
        exact Nat.le_antisymm (Nat.le_of_lt_succ hle) (Nat.not_lt.mp hlt)
      rw [← hmoved.length, getElem?_concat_length] at hr
      obtain rfl := Option.some.inj hr
      obtain rfl : cell = old := Option.some.inj (Array.getElem?_push_size.symm.trans hold)
      exact ⟨cell', Array.getElem?_push_size, hcells.mono hplaces⟩

end Heap.Moved

/-- Whether a cell holds a list or a tuple. -/
def Cell.isSequence : Cell → Bool
  | .list _ | .tuple _ => true
  | _ => false

/-- What evaluation and code have in common while they run side by side. In the heap of the code all
is at other places; it does not matter what becomes of cells out of sight, and a sequence may be
made on both sides. -/
structure Tie where
  Holds : List Ref → EvalState → Scene → Prop
  moved {places : List Ref} {s : EvalState} {t : Scene} : Holds places s t →
    s.heap.Moved places t.heap
  /-- No dictionary has a key twice. -/
  keyed {places : List Ref} {s : EvalState} {t : Scene} {r : Ref} {d : Dict} : Holds places s t →
    s.heap.cells[r]? = some (.dict d) → (d.latest.map Dict.Entry.key).Nodup
  veiled {places : List Ref} {s : EvalState} {t : Scene} {h : Heap} : Holds places s t →
    t.heap.Veils places h → Holds places s { t with heap := h }
  extended {places : List Ref} {s : EvalState} {t : Scene} {cell cell' : Cell} : Holds places s t →
    cell.isSequence = true → cell.Moves places cell' →
    Holds (places ++ [t.heap.cells.size]) { s with heap := (s.heap.alloc cell).2 }
      { t with heap := (t.heap.alloc cell').2 }

namespace Tie

variable {T : Tie} {places places' : List Ref} {hidden : List (Ref × Cell)}
  {s : EvalState} {t : Scene} {α β γ δ : Type}

/-- Evaluation and code are tied, and the code has cells out of sight. -/
structure At (T : Tie) (places : List Ref) (hidden : List (Ref × Cell)) (s : EvalState)
    (t : Scene) : Prop where
  holds : T.Holds places s t
  apart : ∀ {r : Ref} {cell : Cell}, (r, cell) ∈ hidden → r ∉ places ∧ t.heap.cells[r]? = some cell
  distinct : (hidden.map Prod.fst).Nodup

/-- A new cell that only the code knows of. -/
theorem At.alloc (h : T.At places hidden s t) (cell : Cell) :
    T.At places ((t.heap.cells.size, cell) :: hidden) s
      { t with heap := (t.heap.alloc cell).2 } := by
  have hmoved := T.moved h.holds
  have hplace : ∀ r ∈ places, r < t.heap.cells.size := fun r hr => hmoved.lt_size hr
  have hold : ∀ r < t.heap.cells.size, (t.heap.alloc cell).2.cells[r]? = t.heap.cells[r]? :=
    fun r hr =>
    Array.getElem?_push_lt hr ▸ (Array.getElem?_eq_getElem hr).symm ▸ rfl
  refine ⟨T.veiled h.holds ⟨fun r hr => hold r (hplace r hr), ?_, rfl, rfl⟩, ?_, ?_⟩
  · simp [Heap.alloc]
  · intro r cell' hmem
    rcases mem_cons.mp hmem with heq | hmem
    · obtain ⟨rfl, rfl⟩ := Prod.mk.inj heq
      exact ⟨fun hr => Nat.lt_irrefl _ (hplace _ hr), Array.getElem?_push_size⟩
    · obtain ⟨hr, hcell⟩ := h.apart hmem
      exact ⟨hr, (hold r (Array.getElem?_eq_some_iff.mp hcell).1).trans hcell⟩
  · refine nodup_cons.mpr ⟨fun hmem => ?_, h.distinct⟩
    obtain ⟨⟨r, cell'⟩, hmem, rfl⟩ := mem_map.mp hmem
    exact Nat.lt_irrefl _ (Array.getElem?_eq_some_iff.mp (h.apart hmem).2).1

/-- A change of a cell that only the code knows of. -/
theorem At.setCell {r : Ref} {cell : Cell} (h : T.At places ((r, cell) :: hidden) s t)
    (cell' : Cell) :
    T.At places ((r, cell') :: hidden) s { t with heap := t.heap.setCell r cell' } := by
  obtain ⟨hr, hcell⟩ := h.apart mem_cons_self
  have hlt : r < t.heap.cells.size := (Array.getElem?_eq_some_iff.mp hcell).1
  have hother : ∀ r' ≠ r, (t.heap.setCell r cell').cells[r']? = t.heap.cells[r']? := fun r' hne =>
    Array.getElem?_setIfInBounds_ne hne.symm
  obtain ⟨hfresh, hdistinct⟩ := nodup_cons.mp h.distinct
  refine ⟨T.veiled h.holds ⟨fun r' hr' => hother r' fun heq => hr (heq ▸ hr'), ?_, rfl, rfl⟩, ?_,
    nodup_cons.mpr ⟨hfresh, hdistinct⟩⟩
  · simp [Heap.setCell]
  · intro r' cell'' hmem
    rcases mem_cons.mp hmem with heq | hmem
    · obtain ⟨rfl, rfl⟩ := Prod.mk.inj heq
      exact ⟨hr, by simp [Heap.setCell, hlt]⟩
    · obtain ⟨hr', hcell'⟩ := h.apart (mem_cons_of_mem _ hmem)
      have hne : r' ≠ r := fun heq => hfresh (mem_map.mpr ⟨_, hmem, heq⟩)
      exact ⟨hr', (hother r' hne).trans hcell'⟩

/-- A new sequence on both sides. -/
theorem At.extended {cell cell' : Cell} (h : T.At places hidden s t)
    (hsequence : cell.isSequence = true) (hcells : cell.Moves places cell') :
    T.At (places ++ [t.heap.cells.size]) hidden { s with heap := (s.heap.alloc cell).2 }
      { t with heap := (t.heap.alloc cell').2 } := by
  refine ⟨T.extended h.holds hsequence hcells, fun {r cell''} hmem => ?_, h.distinct⟩
  obtain ⟨hr, hcell⟩ := h.apart hmem
  have hlt : r < t.heap.cells.size := (Array.getElem?_eq_some_iff.mp hcell).1
  refine ⟨fun hmem => ?_, ?_⟩
  · rcases mem_append.mp hmem with hmem | hmem
    · exact hr hmem
    · exact Nat.ne_of_lt hlt (mem_singleton.mp hmem)
  · rw [← hcell]
    exact (Array.getElem?_push_lt hlt).trans (Array.getElem?_eq_getElem hlt).symm

/-- A cell that is no longer needed. -/
theorem At.drop {r : Ref} {cell : Cell} (h : T.At places ((r, cell) :: hidden) s t) :
    T.At places hidden s t :=
  ⟨h.holds, fun hmem => h.apart (mem_cons_of_mem _ hmem), (nodup_cons.mp h.distinct).2⟩

/-- How evaluation and code may come out, with cells at given places. -/
abbrev Outcomes (α β : Type) :=
  List Ref → Except Failure α × EvalState → Except Exit β × Scene → Prop

/-- Evaluation and code end alike: with the same failure, or well. -/
inductive Ends (T : Tie) (places : List Ref) (Well : Outcomes α β) :
    Except Failure α × EvalState → Except Exit β × Scene → Prop
  | failure (f : Failure) {places' : List Ref} {s : EvalState} {t : Scene} : places <+: places' →
      T.Holds places' s t → Ends T places Well (.error f, s) (.error (.failure f), t)
  | well {places' : List Ref} {o : Except Failure α × EvalState} {o' : Except Exit β × Scene} :
      places <+: places' → Well places' o o' → Ends T places Well o o'

/-- Evaluation and code come to results that are related. -/
inductive Values (T : Tie) (hidden : List (Ref × Cell)) (R : List Ref → α → β → Prop)
    (places : List Ref) : Except Failure α × EvalState → Except Exit β × Scene → Prop
  | intro {a : α} {b : β} {s : EvalState} {t : Scene} : T.At places hidden s t → R places a b →
      Values T hidden R places (.ok a, s) (.ok b, t)

/-- Wherever evaluation and code are tied they come to results that are related, and are tied again.
Cells that only code further up knows of are left alone. -/
def Follows (T : Tie) (R : List Ref → α → β → Prop) (p : Eval α) (q : Perform β) : Prop :=
  ∀ {places : List Ref} {hidden : List (Ref × Cell)} {s : EvalState} {t : Scene},
    T.At places hidden s t → T.Ends places (T.Values hidden R) (p s) (q t)

/-- The code of an expression pushes the value that the expression is evaluated to. -/
def Pushes (T : Tie) (call : Caller) (globals : Bindings) (ctx : Context) (n : Node) : Prop :=
  T.Follows Value.Moves (n.eval call) (n.perform call globals Gate.opened ctx)

section Ends

variable {Well : Outcomes γ δ} {R : List Ref → α → β → Prop}

theorem Ends.after {o : Except Failure γ × EvalState} {o' : Except Exit δ × Scene}
    (h : T.Ends places' Well o o') (hplaces : places <+: places') : T.Ends places Well o o' := by
  cases h with
  | failure f hfurther hholds => exact .failure f (hplaces.trans hfurther) hholds
  | well hfurther hwell => exact .well (hplaces.trans hfurther) hwell

theorem ends_values {a : α} {b : β} (hat : T.At places hidden s t) (h : R places a b) :
    T.Ends places (T.Values hidden R) (.ok a, s) (.ok b, t) :=
  .well (prefix_refl _) ⟨hat, h⟩

theorem Ends.bind {p : Eval α} {q : Perform β} {f : α → Eval γ} {g : β → Perform δ}
    (h : T.Ends places (T.Values hidden R) (p s) (q t))
    (hfg : ∀ {places' : List Ref} {a : α} {b : β} {s' : EvalState} {t' : Scene},
      places <+: places' →
      T.At places' hidden s' t' → R places' a b → T.Ends places' Well (f a s') (g b t')) :
    T.Ends places Well ((p >>= f) s) ((q >>= g) t) := by
  rw [bind_apply, bind_apply]
  generalize p s = o, q t = o' at h
  cases h with
  | failure f hplaces hholds => exact .failure f hplaces hholds
  | well hplaces hvalues =>
    obtain ⟨hat, hab⟩ := hvalues
    exact (hfg hplaces hat hab).after hplaces

end Ends

end Tie

end ExprBackend
