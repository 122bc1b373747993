import ExprBackend.Proofs.Likeness

/-! # Canonical keys tell values apart

The canonical key of a value starts with a letter for what the value is, and each
part of a tuple ends with a comma that nothing inside it can be taken for. So a key
can be read in one way only, and two values without floating point numbers have the
same key exactly if they are equal. The values that have a key are the scalars, the
functions, the objects, and the tuples of such values.
-/

namespace ExprBackend

open List

/-! ## Sequences -/

namespace View

variable {equal : Value → Value → Option Bool} {inner : Value → Option Text}
  {items items' : List Value}

theorem allM_eq_true_iff {α : Type} {f : α → Option Bool} {l : List α} :
    l.allM f = some true ↔ ∀ x ∈ l, f x = some true := by
  induction l with
  | nil => simp
  | cons x l ih => rcases hx : f x with _ | _ | _ <;> simp [hx, ih]

/-- Sequences are equal if their items are, one by one. -/
theorem equalItems_iff : equalItems equal items items' = some true ↔
    Forall₂ (fun v w => equal v w = some true) items items' := by
  rw [equalItems, forall₂_iff_zip]
  split <;> simp_all [allM_eq_true_iff]

/-- The key of the first of several values goes before those of the others. -/
theorem keys?_cons {v : Value} {k : Text} :
    keys? inner (v :: items) = some k ↔
      ∃ first others, inner v = some first ∧ keys? inner items = some others ∧
        first ++ (44 :: others) = k := by
  have hcomma : ∀ first others : Text, first ++ "," ++ others = first ++ (44 :: others) :=
    fun _ _ =>
    append_assoc ..
  rw [keys?]
  cases inner v <;> cases keys? inner items <;> simp [hcomma]

/-- Several values have keys if each of them does. -/
theorem keys?_isSome : (keys? inner items).isSome = true ↔
    ∀ v ∈ items, (inner v).isSome = true := by
  induction items with
  | nil => simp [keys?]
  | cons v items ih =>
    rw [forall_mem_cons, ← ih, keys?]
    cases inner v <;> simp

/-- Keys with a comma behind each end at the closing bracket, if none of them starts with it. -/
theorem keys?_unique {k l x y : Text} (hone : ∀ v ∈ items, ∀ w ∈ items', ∀ k l x y,
    inner v = some k →
      inner w = some l → k ++ 44 :: x = l ++ 44 :: y → equal v w = some true ∧ x = y)
    (hstart : ∀ v ∈ items ++ items', ∀ k x y, inner v = some k → k ++ x ≠ 41 :: y)
    (hk : keys? inner items = some k) (hl : keys? inner items' = some l)
    (heq : k ++ 41 :: x = l ++ 41 :: y) : equalItems equal items items' = some true ∧ x = y := by
  rw [equalItems_iff]
  induction items generalizing items' k l with
  | nil =>
    cases hk
    cases items' with
    | nil =>
      cases hl
      exact ⟨.nil, (List.cons.inj heq).2⟩
    | cons w items' =>
      obtain ⟨first, others, hfirst, -, rfl⟩ := keys?_cons.mp hl
      rw [append_assoc] at heq
      exact absurd heq.symm (hstart w (by simp) first _ _ hfirst)
  | cons v items ih =>
    obtain ⟨first, others, hfirst, hothers, rfl⟩ := keys?_cons.mp hk
    rw [append_assoc] at heq
    cases items' with
    | nil =>
      cases hl
      exact absurd heq (hstart v (by simp) first _ _ hfirst)
    | cons w items' =>
      obtain ⟨first', others', hfirst', hothers', rfl⟩ := keys?_cons.mp hl
      rw [append_assoc] at heq
      obtain ⟨hequal, hrest⟩ := hone v mem_cons_self w mem_cons_self _ _ _ _ hfirst hfirst' heq
      obtain ⟨hsame, hend⟩ := ih
        (fun u hu u' hu' => hone u (mem_cons_of_mem v hu) u' (mem_cons_of_mem w hu'))
        (fun u hu => hstart u (by
          rcases mem_append.mp hu with hu | hu
          · exact mem_append_left _ (mem_cons_of_mem v hu)
          · exact mem_append_right _ (mem_cons_of_mem w hu)))
        hothers hothers' hrest
      exact ⟨.cons hequal hsame, hend⟩

end View

namespace Heap

variable {h : Heap} {v w u : Value} {level level' : Nat} {k l x y : Text}

/-! ## What is in a value -/

/-- A value is another, or is in it, however deep. -/
def Contains (h : Heap) : Value → Value → Prop := Relation.ReflTransGen fun v u => u ∈ h.contents v

/-- What is in a value is in every list that it belongs to and that has the contents of its items.
-/
theorem Contains.mem {vs : List Value} (hclosed : ∀ v ∈ vs, ∀ u ∈ h.contents v, u ∈ vs)
    (hv : v ∈ vs) (hu : h.Contains v u) : u ∈ vs := by
  induction hu with
  | refl => exact hv
  | tail _ hlast ih => exact hclosed _ ih _ hlast

/-- There is no floating point number in a value. -/
def FloatFree (h : Heap) (v : Value) : Prop := ∀ f, ¬h.Contains v (.float f)

theorem FloatFree.of_mem (hv : h.FloatFree v) (hu : u ∈ h.contents v) : h.FloatFree u :=
  fun f hf => hv f (.head hu hf)

/-- Functions and objects that are in a value have cells of their own. -/
def Housed (h : Heap) (v : Value) : Prop :=
  (∀ r, h.Contains v (.function r) → ∃ f, h.cells[r]? = some (.function f)) ∧
    ∀ r, h.Contains v (.object r) → ∃ o, h.cells[r]? = some (.object o)

theorem Housed.of_mem (hv : h.Housed v) (hu : u ∈ h.contents v) : h.Housed u :=
  ⟨fun r hr => hv.1 r (.head hu hr), fun r hr => hv.2 r (.head hu hr)⟩

/-- No cell is that of a function and that of an object. -/
theorem Housed.apart {r : Ref} (hv : h.Housed (.function r)) (hw : h.Housed (.object r)) :
    False := by
  obtain ⟨f, hf⟩ := hv.1 r .refl
  obtain ⟨o, ho⟩ := hw.2 r .refl
  rw [hf] at ho
  cases ho

theorem contents_tuple (h : Heap) (r : Ref) : h.contents (.tuple r) = h.tuple r := by
  cases hcell : h.cells[r]? with
  | none => simp [contents, tuple, place, hcell]
  | some cell => cases cell <;> simp [contents, tuple, place, hcell]

/-! ## Values with a key -/

/-- The values that can be keys of dictionaries, if they are no floating point numbers. -/
inductive Hashable (h : Heap) : Value → Prop
  | none : Hashable h .none
  | noReceiver : Hashable h .noReceiver
  | bool (b : Bool) : Hashable h (.bool b)
  | int (i : Int64) : Hashable h (.int i)
  | str (s : Text) : Hashable h (.str s)
  | function (r : Ref) : Hashable h (.function r)
  | object (r : Ref) : Hashable h (.object r)
  | tuple (r : Ref) : (∀ v ∈ h.tuple r, Hashable h v) → Hashable h (.tuple r)

/-- A value that can be a key does not contain itself. -/
theorem Hashable.within (hv : h.Hashable v) : h.Within h.levels v := by
  induction hv with
  | tuple r _ ih =>
    have hlevels : h.Within (h.levels + 1) (.tuple r) := fun u hu => ih u (h.contents_tuple r ▸ hu)
    exact hlevels.levels
  | _ => exact fun u hu => absurd hu (by simp [contents])

theorem Hashable.keyTo?_isSome (hv : h.Hashable v) (hwithin : h.Within level v) :
    (h.keyTo? level v).isSome = true := by
  induction level generalizing v with
  | zero => exact hwithin.elim
  | succ level ih =>
    cases hv with
    | tuple r hitems =>
      have hkeys : (View.keys? (h.keyTo? level) (h.tuple r)).isSome = true :=
        View.keys?_isSome.mpr fun u hu => ih (hitems u hu) (hwithin u (h.contents_tuple r ▸ hu))
      simpa [keyTo?, view, View.key?] using hkeys
    | _ => rfl

theorem hashable_of_keyTo? (hv : h.FloatFree v) (hk : (h.keyTo? level v).isSome = true) :
    h.Hashable v := by
  induction level generalizing v with
  | zero => cases hk
  | succ level ih =>
    cases v with
    | tuple r =>
      have hkeys : (View.keys? (h.keyTo? level) (h.tuple r)).isSome = true := by
        simpa [keyTo?, view, View.key?] using hk
      refine .tuple r fun u hu => ih (hv.of_mem (h.contents_tuple r ▸ hu)) ?_
      exact View.keys?_isSome.mp hkeys u hu
    | float f => exact absurd .refl (hv f)
    | list r | dict r | slice r => cases hk
    | _ => constructor

/-! ## Reading a key -/

/-- The letter that the key of a value starts with, if the value is no floating point number. -/
def letter : Value → UInt8
  | .none | .noReceiver => 78
  | .bool _ => 98
  | .int _ => 110
  | .str _ => 115
  | .tuple _ => 116
  | .function _ | .object _ => 112
  | _ => 0

theorem letter_ne_close (v : Value) : letter v ≠ 41 := by cases v <;> simp [letter]

theorem keyTo?_letter (hv : h.FloatFree v) (hk : h.keyTo? level v = some k) :
    ∃ t, k = letter v :: t := by
  cases level with
  | zero => cases hk
  | succ level =>
    cases v with
    | float f => exact absurd .refl (hv f)
    | list r | dict r | slice r => cases hk
    | bool b => cases b <;> cases hk <;> exact ⟨_, rfl⟩
    | tuple r =>
      obtain ⟨keys, -, rfl⟩ := Option.map_eq_some_iff.mp hk
      exact ⟨_, rfl⟩
    | _ =>
      cases hk
      exact ⟨_, rfl⟩

/-- A key with a comma behind it tells the value. -/
theorem keyTo?_unique (hv : h.FloatFree v) (hw : h.FloatFree w) (hv' : h.Housed v)
    (hw' : h.Housed w) (hk : h.keyTo? level v = some k) (hl : h.keyTo? level w = some l)
    (hle : level ≤ level') (heq : k ++ 44 :: x = l ++ 44 :: y) :
    h.equalTo level' v w = some true ∧ x = y := by
  induction level generalizing v w k l x y level' with
  | zero => cases hk
  | succ level ih =>
    obtain ⟨level', rfl, hle'⟩ := Window.exists_succ_of_succ_le hle
    have hletter : letter v = letter w := by
      obtain ⟨s, rfl⟩ := keyTo?_letter hv hk
      obtain ⟨t, rfl⟩ := keyTo?_letter hw hl
      exact (List.cons.inj heq).1
    have hplace : ∀ {r s : Ref}, (112 :: 48 :: 120 :: Text.hex r) ++ 44 :: x =
        (112 :: 48 :: 120 :: Text.hex s) ++ 44 :: y → r = s ∧ x = y := by
      intro r s hhex
      obtain ⟨hsame, hrest⟩ := Text.part_unique (Text.hex_digits r) (Text.hex_digits s)
        ⟨44, x, rfl, rfl⟩ ⟨44, y, rfl, rfl⟩
          (List.cons.inj (List.cons.inj (List.cons.inj hhex).2).2).2
      exact ⟨Text.hex_injective hsame, (List.cons.inj hrest).2⟩
    cases v with
    | float f => exact absurd .refl (hv f)
    | list r | dict r | slice r => cases hk
    | none | noReceiver =>
      cases w with
      | none | noReceiver =>
        cases hk
        cases hl
        exact ⟨rfl, (List.cons.inj (append_cancel_left heq)).2⟩
      | _ => simp [letter] at hletter
    | bool b =>
      cases w with
      | bool c =>
        cases hk
        cases hl
        cases b <;> cases c <;> first
          | exact ⟨rfl, (List.cons.inj (append_cancel_left heq)).2⟩
          | exact absurd (List.cons.inj (List.cons.inj heq).2).1 (by decide)
      | _ => simp [letter] at hletter
    | int i =>
      cases w with
      | int j =>
        cases hk
        cases hl
        have hnumber : Text.ofInt i.toInt ++ 44 :: x = Text.ofInt j.toInt ++ 44 :: y :=
          (List.cons.inj heq).2
        obtain ⟨hint, hrest⟩ := Text.ofInt_unique ⟨44, x, rfl, rfl⟩ ⟨44, y, rfl, rfl⟩ hnumber
        obtain rfl := Int64.toInt_inj.mp hint
        exact ⟨congrArg some (beq_self_eq_true i), (List.cons.inj hrest).2⟩
      | _ => simp [letter] at hletter
    | str s =>
      cases w with
      | str t =>
        cases hk
        cases hl
        have hquote : Text.quote s ++ 44 :: x = Text.quote t ++ 44 :: y := (List.cons.inj heq).2
        obtain ⟨rfl, hrest⟩ := Text.quote_unique hquote
        exact ⟨congrArg some (beq_self_eq_true s), (List.cons.inj hrest).2⟩
      | _ => simp [letter] at hletter
    | tuple r =>
      cases w with
      | tuple s =>
        obtain ⟨keys, hkeys, rfl⟩ := Option.map_eq_some_iff.mp hk
        obtain ⟨keys', hkeys', rfl⟩ := Option.map_eq_some_iff.mp hl
        have hopen : ∀ keys x : Text, "t(" ++ keys ++ ")" ++ 44 :: x =
            116 :: 40 :: (keys ++ 41 :: 44 :: x) := fun keys x => by
          rw [append_assoc, append_assoc]
          rfl
        rw [hopen, hopen] at heq
        have hof : ∀ {r : Ref} {u : Value}, u ∈ h.tuple r → u ∈ h.contents (.tuple r) := by
          intro r u hu
          rwa [contents_tuple]
        obtain ⟨hsame, hrest⟩ := View.keys?_unique (fun u hu u' hu' k l x y hk hl => ih
          (hv.of_mem (hof hu)) (hw.of_mem (hof hu')) (hv'.of_mem (hof hu))
            (hw'.of_mem (hof hu')) hk hl hle')
          (fun u hu k x y hk hstart => by
            have hu' : h.FloatFree u := (mem_append.mp hu).elim (fun hu => hv.of_mem (hof hu))
              fun hu => hw.of_mem (hof hu)
            obtain ⟨t, rfl⟩ := keyTo?_letter hu' hk
            exact letter_ne_close u (List.cons.inj hstart).1) hkeys hkeys'
          (List.cons.inj (List.cons.inj heq).2).2
        exact ⟨hsame, (List.cons.inj hrest).2⟩
      | _ => simp [letter] at hletter
    | function r =>
      cases w with
      | function s =>
        cases hk
        cases hl
        obtain ⟨rfl, hrest⟩ := hplace heq
        exact ⟨congrArg some (beq_self_eq_true r), hrest⟩
      | object s =>
        cases hk
        cases hl
        obtain ⟨rfl, -⟩ := hplace heq
        exact (hv'.apart hw').elim
      | _ => simp [letter] at hletter
    | object r =>
      cases w with
      | object s =>
        cases hk
        cases hl
        obtain ⟨rfl, hrest⟩ := hplace heq
        exact ⟨congrArg some (beq_self_eq_true r), hrest⟩
      | function s =>
        cases hk
        cases hl
        obtain ⟨rfl, -⟩ := hplace heq
        exact (hw'.apart hv').elim
      | _ => simp [letter] at hletter

/-- Values that are equal are of one kind, unless they are numbers of different kinds. -/
theorem kind_of_equalTo (hv : h.FloatFree v) (hw : h.FloatFree w)
    (hequal : h.equalTo (level + 1) v w = some true) : v.kind = w.kind := by
  cases v with
  | float f => exact absurd .refl (hv f)
  | _ =>
    cases w with
    | float f => exact absurd .refl (hw f)
    | _ => first | rfl | cases hequal

/-- Values that are equal have the same key or none. -/
theorem keyTo?_congr (hv : h.FloatFree v) (hw : h.FloatFree w) (hle : level ≤ level')
    (hequal : h.equalTo level' v w = some true) : h.keyTo? level v = h.keyTo? level w := by
  induction level generalizing v w level' with
  | zero => rfl
  | succ level ih =>
    obtain ⟨level', rfl, hle'⟩ := Window.exists_succ_of_succ_le hle
    have hkind := kind_of_equalTo hv hw hequal
    cases v with
    | float f => exact absurd .refl (hv f)
    | tuple r =>
      cases w with
      | tuple s =>
        have hitems := Node.forall₂_imp_mem (View.equalItems_iff.mp hequal) fun u hu u' hu' =>
          ih (hv.of_mem (h.contents_tuple r ▸ hu)) (hw.of_mem (h.contents_tuple s ▸ hu')) hle'
        exact congrArg (Option.map _) (View.keys?_congr (fun _ _ hsame => hsame) hitems)
      | _ => cases hkind
    | bool b | int b | str b | function b | object b =>
      cases w <;> first | (cases eq_of_beq (Option.some.inj hequal); rfl) | cases hkind
    | _ => cases w <;> first | rfl | cases hkind

/-- Canonical keys tell apart what is not equal, and nothing else. The values without floating point
numbers that have one are the scalars, the functions, the objects, and tuples of such values. -/
theorem key?_eq_iff_equal (hv : h.FloatFree v) (hw : h.FloatFree w) (hv' : h.Housed v)
    (hw' : h.Housed w) :
    ((h.key? v).isSome = true ↔ h.Hashable v) ∧
      ∀ k l, h.key? v = some k → h.key? w = some l → (k = l ↔ h.equal v w = some true) := by
  refine ⟨⟨hashable_of_keyTo? hv, fun hhash => hhash.keyTo?_isSome hhash.within⟩,
    fun k l hk hl => ⟨?_, fun hequal => ?_⟩⟩
  · rintro rfl
    exact (keyTo?_unique (x := []) hv hw hv' hw' hk hl h.levels_lt_pairLevels.le rfl).1
  · have hsame : h.key? v = h.key? w := keyTo?_congr hv hw h.levels_lt_pairLevels.le hequal
    rw [hk, hl] at hsame
    exact Option.some.inj hsame

/-- A function, an object, and two tuples of both with a number. -/
def twoTuples : Heap where
  cells := #[.function (.builtin [] .echo), .object ⟨[], {}, {}⟩,
    .tuple [.function 0, .object 1, .int 5], .tuple [.function 0, .object 1, .int 5]]

theorem key?_eq_iff_equal_twoTuples :
    (twoTuples.key? (.tuple 2)).isSome = true ∧
    twoTuples.key? (.tuple 2) = twoTuples.key? (.tuple 3) := by
  have hitems : ∀ r, r = 2 ∨ r = 3 → ∀ u, twoTuples.Contains (.tuple r) u →
      u ∈ [.tuple r, .function 0, .object 1, .int 5] := by
    rintro r (rfl | rfl) u hu <;> exact hu.mem (by decide) (by simp)
  have hfree : ∀ r, r = 2 ∨ r = 3 → twoTuples.FloatFree (.tuple r) := fun r hr f hf => by
    simpa using hitems r hr _ hf
  have hhoused : ∀ r, r = 2 ∨ r = 3 → twoTuples.Housed (.tuple r) := fun r hr =>
    ⟨fun s hs => by
      obtain rfl : s = 0 := by simpa using hitems r hr _ hs
      exact ⟨_, rfl⟩,
    fun s hs => by
      obtain rfl : s = 1 := by simpa using hitems r hr _ hs
      exact ⟨_, rfl⟩⟩
  obtain ⟨hsome, hkeys⟩ := key?_eq_iff_equal (hfree 2 (.inl rfl)) (hfree 3 (.inr rfl))
    (hhoused 2 (.inl rfl)) (hhoused 3 (.inr rfl))
  have hhashable : twoTuples.Hashable (.tuple 2) := .tuple 2 fun v hv => by
    rcases (by simpa [twoTuples, tuple] using hv : v = .function 0 ∨ v = .object 1 ∨
      v = .int 5) with
      rfl | rfl | rfl <;> constructor
  refine ⟨hsome.mpr hhashable, ?_⟩
  obtain ⟨k, hk⟩ := Option.isSome_iff_exists.mp (hsome.mpr hhashable)
  obtain ⟨l, hl⟩ : ∃ l, twoTuples.key? (.tuple 3) = some l :=
    Option.isSome_iff_exists.mp (by decide)
  rw [hk, hl, (hkeys k l hk hl).mpr (by decide)]

end Heap

end ExprBackend
