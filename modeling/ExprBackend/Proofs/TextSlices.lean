import ExprBackend.Operator.Arithmetic
import ExprBackend.Proofs.Characters
import ExprBackend.Proofs.SliceResolution

/-! # Slices and items of texts

Texts are cut between characters, never within one. Cutting at any place and
joining the parts, reversing twice, and joining the single characters all give a
well-formed text back. An index means a character exactly if it is at least minus
the number of characters and less than their number.
-/

namespace ExprBackend

open List Text

variable {i : Int} {k : Int64} {places : List Int} {u v w : Value}

namespace Slicing

variable {α : Type} {items : List α}

theorem select_eq (items : List α) (places : List Int64) :
    select items.toArray places = (places.map Int64.toInt).filterMap fun i => items[i.toNat]? := by
  rw [select, filterMap_map]
  apply filterMap_congr
  intro i _
  exact getElem?_toArray

/-- A walk upwards place by place selects a stretch of the sequence. -/
theorem Visits.select_upwards {stop : Int} (h : Visits 1 stop i places) (hi : 0 ≤ i)
    (hstop : stop ≤ items.length) :
    places.filterMap (fun i => items[i.toNat]?) = (items.drop i.toNat).take (stop - i).toNat := by
  induction h with
  | @ended i hend =>
    have hnone : (stop - i).toNat = 0 := by
      rw [Before, if_pos (by decide)] at hend
      omega
    rw [hnone]
    rfl
  | @onward i places hbefore hrest ih =>
    rw [Before, if_pos (by decide)] at hbefore
    have hlt : i.toNat < items.length := by omega
    have hmore : (stop - i).toNat = (stop - (i + 1)).toNat + 1 := by omega
    have hnext : (i + 1).toNat = i.toNat + 1 := by omega
    rw [filterMap_cons, getElem?_eq_getElem hlt, ih (by omega), hmore, hnext,
      drop_eq_getElem_cons hlt, take_succ_cons]

/-- A walk downwards place by place to the start selects the items so far, the last one first. -/
theorem Visits.select_downwards (h : Visits (-1) (-1) i places) (hi : i < items.length) :
    places.filterMap (fun i => items[i.toNat]?) = (items.take (i + 1).toNat).reverse := by
  induction h with
  | @ended i hend =>
    have hnone : (i + 1).toNat = 0 := by
      rw [Before, if_neg (by decide)] at hend
      omega
    rw [hnone]
    rfl
  | @onward i places hbefore hrest ih =>
    rw [Before, if_neg (by decide)] at hbefore
    have hlt : i.toNat < items.length := by omega
    have hmore : (i + 1).toNat = i.toNat + 1 := by omega
    have hnext : (i + -1 + 1).toNat = i.toNat := by omega
    rw [filterMap_cons, getElem?_eq_getElem hlt, ih (by omega), hmore, hnext,
      take_succ_eq_append_getElem hlt, reverse_append]
    rfl

/-- A slice up to a place selects the items before it. -/
theorem items_upTo (hu : Means u none) (hv : Means v (some k)) (hw : Means w none)
    (hlength : items.length < 2 ^ 63) :
    Slicing.items u v w items = .ok (items.take (resolved items.length 1 k.toInt).toNat) := by
  obtain ⟨places, hpositions, -, hvisits, -⟩ := positions_visits hu hv hw nofun hlength
  change Visits 1 (resolved items.length 1 k.toInt) 0 (places.map Int64.toInt) at hvisits
  have hinside := resolved_inside (Int.natCast_nonneg items.length) 1 k.toInt
  rw [Inside, if_pos (by decide)] at hinside
  rw [items_of_positions hpositions, select_eq, hvisits.select_upwards (Int.le_refl 0) hinside.2,
    Int.sub_zero]
  rfl

/-- A slice from a place on selects the items behind it. -/
theorem items_onFrom (hu : Means u (some k)) (hv : Means v none) (hw : Means w none)
    (hlength : items.length < 2 ^ 63) :
    Slicing.items u v w items = .ok (items.drop (resolved items.length 1 k.toInt).toNat) := by
  obtain ⟨places, hpositions, -, hvisits, -⟩ := positions_visits hu hv hw nofun hlength
  change Visits 1 items.length (resolved items.length 1 k.toInt) (places.map Int64.toInt) at hvisits
  have hinside := resolved_inside (Int.natCast_nonneg items.length) 1 k.toInt
  rw [Inside, if_pos (by decide)] at hinside
  have hall : (items.drop (resolved items.length 1 k.toInt).toNat).length ≤
      (items.length - resolved items.length 1 k.toInt).toNat := by
    rw [length_drop]
    omega
  rw [items_of_positions hpositions, select_eq, hvisits.select_upwards hinside.1 (Int.le_refl _),
    take_of_length_le hall]

/-- A slice by the step `-1` selects all items in the opposite order. -/
theorem items_backwards (hu : Means u none) (hv : Means v none) (hw : Means w (some (-1)))
    (hlength : items.length < 2 ^ 63) : Slicing.items u v w items = .ok items.reverse := by
  obtain ⟨places, hpositions, -, hvisits, -⟩ := positions_visits hu hv hw (by decide) hlength
  change Visits (-1) (-1) (items.length - 1) (places.map Int64.toInt) at hvisits
  rw [items_of_positions hpositions, select_eq, hvisits.select_downwards (by omega),
    Int.sub_add_cancel, Int.toNat_natCast, take_length]

end Slicing

namespace Run

open Slicing

/-- The place that an index means, if it is one of the sequence. -/
theorem place?_eq (i : Int64) {length : Nat} (hlength : length < 2 ^ 63) :
    place? i length =
      if -(length : Int) ≤ i.toInt ∧ i.toInt < length then some (fromEnd length i.toInt).toNat
        else none := by
  obtain ⟨-, hexact⟩ := length?_of_fits hlength
  have hneg : i < 0 ↔ i.toInt < 0 := Int64.lt_iff_toInt_lt
  have hlow := i.le_toInt
  have hplace : (if i < 0 then i + Int64.ofNat length else i).toInt = fromEnd length i.toInt := by
    rw [fromEnd, ← hexact]
    simp only [hneg]
    split
    · exact (add?_of_fits (by omega) (by omega)).2
    · rfl
  unfold place?
  dsimp only
  generalize (if i < 0 then i + Int64.ofNat length else i) = place at hplace ⊢
  have hout : place < 0 ∨ place ≥ Int64.ofNat length ↔
      ¬(-(length : Int) ≤ i.toInt ∧ i.toInt < length) := by
    rw [Int64.lt_iff_toInt_lt, ge_iff_le, Int64.le_iff_toInt_le, hexact, hplace,
      Int64.toInt_zero, fromEnd]
    split <;> omega
  simp only [hout, ite_not, hplace]

variable {s : Text}

theorem slice_str {cs : List Char} (hitems : Slicing.items u v w (chars s) = .ok cs) (h : Heap) :
    slice (.str s) u v w h = (.ok (.str (encode cs)), h) := by
  rw [slice, bind_apply, hitems]
  rfl

theorem index_str (s : Text) (i : Int64) (h : Heap) :
    index (.str s) (.int i) h =
      match (place? i (chars s).length).bind ((chars s)[·]?) with
      | some c => (.ok (.str (encodeChar c)), h)
      | none => (.error (.runtime .textIndexRange), h) := by
  have hrun : index (.str s) (.int i) =
      (do return .str (encodeChar (← itemAt i (chars s).toArray .textIndexRange))) := rfl
  rw [hrun]
  unfold itemAt
  rw [bind_apply]
  simp only [size_toArray, getElem?_toArray]
  cases (place? i (chars s).length).bind ((chars s)[·]?) <;> rfl

theorem binary_add_str (s t : Text) (h : Heap) :
    binary .add (.str s) (.str t) h = (.ok (.str (s ++ t)), h) := rfl

/-- A text is cut at a place between two characters, or at an end. -/
theorem slices_join (hs : isUtf8 s = true) (hchars : (chars s).length < 2 ^ 63) (k : Int64)
    (h : Heap) :
    ∃ front back, slice (.str s) .none (.int k) .none h = (.ok (.str front), h) ∧
      slice (.str s) (.int k) .none .none h = (.ok (.str back), h) ∧
      binary .add (.str front) (.str back) h = (.ok (.str s), h) := by
  have habsent : Means .none none := .absent rfl
  refine ⟨_, _, slice_str (items_upTo habsent (.int k) habsent hchars) h,
    slice_str (items_onFrom (.int k) habsent habsent hchars) h, ?_⟩
  rw [binary_add_str, encode, encode, ← flatMap_append, take_append_drop]
  change (Except.ok (Value.str (encode (chars s))), h) = _
  rw [encode_chars hs]

theorem slice_reverses (hchars : (chars s).length < 2 ^ 63) (h : Heap) :
    slice (.str s) .none .none (.int (-1)) h = (.ok (.str (encode (chars s).reverse)), h) :=
  slice_str (items_backwards (.absent rfl) (.absent rfl) (.int (-1)) hchars) h

theorem index_place (hchars : (chars s).length < 2 ^ 63) {i : Nat} (hi : i < (chars s).length)
    (h : Heap) :
    index (.str s) (.int (.ofNat i)) h = (.ok (.str (encodeChar (chars s)[i])), h) := by
  have hexact := (length?_of_fits (lt_trans hi hchars)).2
  rw [index_str, place?_eq _ hchars, if_pos (by omega), Option.bind_some, fromEnd, hexact,
    if_neg (by omega), Int.toNat_natCast, getElem?_eq_getElem hi]

/-- An index means a character if it lies in the range, and else it is out of range. -/
theorem index_ok_iff (hchars : (chars s).length < 2 ^ 63) (i : Int64) (h : Heap) :
    (∃ v, (index (.str s) (.int i) h).1 = .ok v) ↔
      -((chars s).length : Int) ≤ i.toInt ∧ i.toInt < (chars s).length := by
  rw [index_str, place?_eq i hchars]
  by_cases hrange : -((chars s).length : Int) ≤ i.toInt ∧ i.toInt < (chars s).length
  · have hlt : (fromEnd (chars s).length i.toInt).toNat < (chars s).length := by
      unfold fromEnd
      split <;> omega
    rw [if_pos hrange, Option.bind_some, getElem?_eq_getElem hlt]
    exact iff_of_true ⟨_, rfl⟩ hrange
  · rw [if_neg hrange]
    exact iff_of_false nofun hrange

/-- A well-formed text is put together again from its parts: from those before and behind any place,
from its reverse by reversing it, and from its single characters, each of which is a text of one
character. The indices that mean a character are those from minus the number of characters to before
their number. -/
theorem text_parts (hs : isUtf8 s = true) (hlength : s.length < 2 ^ 63) (h : Heap) :
    (∀ k : Int64, ∃ front back,
      slice (.str s) .none (.int k) .none h = (.ok (.str front), h) ∧
      slice (.str s) (.int k) .none .none h = (.ok (.str back), h) ∧
      binary .add (.str front) (.str back) h = (.ok (.str s), h)) ∧
    (∃ reversed, slice (.str s) .none .none (.int (-1)) h = (.ok (.str reversed), h) ∧
      slice (.str reversed) .none .none (.int (-1)) h = (.ok (.str s), h)) ∧
    (∃ singles : List Text, singles.length = (chars s).length ∧ singles.flatten = s ∧
      (∀ t ∈ singles, isUtf8 t = true ∧ (chars t).length = 1) ∧
      ∀ i (hi : i < singles.length), index (.str s) (.int (.ofNat i)) h =
        (.ok (.str singles[i]), h)) ∧
    ∀ i : Int64, (∃ v, (index (.str s) (.int i) h).1 = .ok v) ↔
      -((chars s).length : Int) ≤ i.toInt ∧ i.toInt < (chars s).length := by
  have hchars : (chars s).length < 2 ^ 63 := lt_of_le_of_lt (length_chars_le s) hlength
  refine ⟨fun k => slices_join hs hchars k h, ?_, ?_, fun i => index_ok_iff hchars i h⟩
  · refine ⟨_, slice_reverses hchars h, ?_⟩
    rw [slice_reverses, chars_encode, reverse_reverse, encode_chars hs]
    rw [chars_encode, length_reverse]
    exact hchars
  · refine ⟨(chars s).map encodeChar, length_map _, ?_, ?_, ?_⟩
    · rw [← flatMap_def]
      exact encode_chars hs
    · intro t ht
      obtain ⟨c, -, rfl⟩ := mem_map.mp ht
      have hsingle : encodeChar c = encode [c] := (append_nil _).symm
      rw [hsingle, isUtf8_encode, chars_encode]
      exact ⟨rfl, rfl⟩
    · intro i hi
      rw [length_map] at hi
      rw [index_place hchars hi, getElem_map]

/-- Characters of one to four bytes are kept whole. -/
theorem text_parts_mixed :
    isUtf8 (encode ['a', 'é', '€', '😀']) = true ∧
      (encode ['a', 'é', '€', '😀']).length < 2 ^ 63 ∧
      ∃ front back,
        slice (.str (encode ['a', 'é', '€', '😀'])) .none (.int (-2)) .none {} =
          (.ok (.str front), {}) ∧
        slice (.str (encode ['a', 'é', '€', '😀'])) (.int (-2)) .none .none {} =
          (.ok (.str back), {}) ∧
        binary .add (.str front) (.str back) {} = (.ok (.str (encode ['a', 'é', '€', '😀'])), {}) :=
  ⟨isUtf8_encode _, by decide, (text_parts (isUtf8_encode _) (by decide) {}).1 (-2)⟩

end Run

end ExprBackend
