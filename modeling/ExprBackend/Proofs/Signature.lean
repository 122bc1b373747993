import Mathlib.Data.List.Nodup
import ExprBackend.Proofs.Growth
import ExprBackend.Proofs.Quotation

/-! # Signatures are unambiguous

The signature of a value tells what the value is, as far as constants are told
apart: scalars by type and value, everything with an identity by its place, and
tuples and slices by their parts. The signature of an expression tells its form,
its operators, names and flags, and its operands. Names are quoted, numbers and
words end where something else follows, and each list ends with its bracket, so
nothing that is written can be read in two ways.
-/

namespace ExprBackend

open List Text

variable {a b : Option Node} {h : Heap} {ks ls : List (Text × Node)} {ms ns : List Node} {r : Nat}
  {v w : Value} {x y : Text} {α : Type}

namespace Text

/-- What is written does not depend on what follows. -/
def Trails (write : Text → Text) : Prop := ∀ rest, write rest = write [] ++ rest

theorem trails_append (t : Text) : Trails (t ++ ·) := by
  intro rest
  beta_reduce
  rw [append_nil]

variable {f : Text → Text} {write : α → Text → Text} {as : List α}

theorem Trails.comp {g : Text → Text} (hf : Trails f) (hg : Trails g) :
    Trails fun rest => f (g rest) := by
  intro rest
  beta_reduce
  rw [hf, hg, hf (g []), append_assoc]

theorem Trails.cancel (hf : Trails f) (h : f x = f y) : x = y := by
  rw [hf x, hf y] at h
  exact append_cancel_left h

theorem Trails.behind (hf : Trails f) (t : Text) : Trails fun rest => t ++ f rest :=
  (trails_append t).comp hf

theorem Trails.before (hf : Trails f) (t : Text) : Trails fun rest => f (t ++ rest) :=
  hf.comp (trails_append t)

theorem trails_joinThen (h : ∀ a, Trails (write a)) (separator : Text) (as : List α) :
    Trails (joinThen separator write as) := by
  induction as with
  | nil => exact trails_append []
  | cons a as ih =>
    cases as with
    | nil => exact h a
    | cons b as => exact (h a).comp (ih.behind separator)

theorem joinThen_congr {β : Type} {write' : β → Text → Text} {R : α → β → Prop}
    (hone : ∀ a b, R a b → ∀ rest, write a rest = write' b rest) {separator : Text} {bs : List β}
    (h : Forall₂ R as bs) (rest : Text) :
    joinThen separator write as rest = joinThen separator write' bs rest := by
  induction h with
  | nil => rfl
  | @cons a b as bs hfirst hothers ih =>
    cases hothers with
    | nil => exact hone a b hfirst rest
    | @cons c d as bs hsecond hmore =>
      change write a (separator ++ joinThen separator write (c :: as) rest) =
        write' b (separator ++ joinThen separator write' (d :: bs) rest)
      rw [ih, hone a b hfirst]

/-- A comma or a closing bracket follows. -/
def Stops (close : UInt8) (x : Text) : Prop := ∃ u t, x = u :: t ∧ (u = close ∨ u = 44)

theorem stops_close (close : UInt8) (x : Text) : Stops close (close :: x) :=
  ⟨close, x, rfl, .inl rfl⟩

theorem stops_comma (close : UInt8) (x : Text) : Stops close (44 :: x) := ⟨44, x, rfl, .inr rfl⟩

/-- Things with commas between them end at the closing bracket, if none of them starts with it. -/
theorem joinThen_unique {R : α → α → Prop} {close : UInt8} (hclose : close ≠ 44) {bs : List α}
    (hone : ∀ a ∈ as, ∀ b ∈ bs, ∀ x y, Stops close x → Stops close y → write a x = write b y →
      R a b ∧ x = y) (hstart : ∀ a ∈ as ++ bs, ∀ x y, write a x ≠ close :: y)
    (h : joinThen [44] write as (close :: x) = joinThen [44] write bs (close :: y)) :
    Forall₂ R as bs ∧ x = y := by
  induction as generalizing bs with
  | nil =>
    cases bs with
    | nil => exact ⟨.nil, (List.cons.inj h).2⟩
    | cons b bs =>
      cases bs with
      | nil => exact absurd h.symm (hstart b (by simp) _ _)
      | cons c bs => exact absurd h.symm (hstart b (by simp) _ _)
  | cons a as ih =>
    cases bs with
    | nil =>
      cases as with
      | nil => exact absurd h (hstart a (by simp) _ _)
      | cons c as => exact absurd h (hstart a (by simp) _ _)
    | cons b bs =>
      have hfirst := hone a mem_cons_self b mem_cons_self
      cases as with
      | nil =>
        cases bs with
        | nil =>
          obtain ⟨hab, hxy⟩ := hfirst _ _ (stops_close _ x) (stops_close _ y) h
          exact ⟨.cons hab .nil, (List.cons.inj hxy).2⟩
        | cons c bs =>
          obtain ⟨-, hxy⟩ := hfirst _ _ (stops_close _ x) (stops_comma _ _) h
          exact absurd (List.cons.inj hxy).1 hclose
      | cons d as =>
        cases bs with
        | nil =>
          obtain ⟨-, hxy⟩ := hfirst _ _ (stops_comma _ _) (stops_close _ y) h
          exact absurd (List.cons.inj hxy).1.symm hclose
        | cons c bs =>
          obtain ⟨hab, hxy⟩ := hfirst _ _ (stops_comma _ _) (stops_comma _ _) h
          have hothers : ∀ u ∈ d :: as ++ c :: bs, ∀ x y, write u x ≠ close :: y := by
            intro u hu
            apply hstart u
            rcases mem_append.mp hu with hu | hu
            · exact mem_append_left _ (mem_cons_of_mem a hu)
            · exact mem_append_right _ (mem_cons_of_mem b hu)
          obtain ⟨hsame, hend⟩ := ih (fun a' ha' b' hb' =>
            hone a' (mem_cons_of_mem a ha') b' (mem_cons_of_mem b hb')) hothers
            (List.cons.inj hxy).2
          exact ⟨.cons hab hsame, hend⟩

end Text

/-! ## Values -/

/-- What a cell with a tuple or a slice consists of. -/
def Cell.parts : Cell → List Value
  | .tuple items => items
  | .slice start stop step => [start, stop, step]
  | _ => []

/-- A tuple or a slice from before a place in the heap, or something else. -/
def Value.Before (r : Ref) : Value → Prop
  | .tuple s | .slice s => s < r
  | _ => True

namespace Heap

variable {r : Ref} {level : Nat} {inner : Value → Text → Text}

/-- What tuples and slices consist of. -/
def parts (h : Heap) : Value → List Value
  | .tuple r => h.tuple r
  | .slice r => [(h.slice r).1, (h.slice r).2.1, (h.slice r).2.2]
  | _ => []

/-- Two values are the same as constants: equal scalars, the same reference, or tuples or slices of
the same parts. Floating point numbers count as equal if they are written alike. -/
inductive Same (h : Heap) : Value → Value → Prop
  | identical {v w : Value} (hidentical : v.identical w = true) : Same h v w
  | float {f g : Float} (htext : Number.floatText f = Number.floatText g) :
      Same h (.float f) (.float g)
  | compound {v w : Value} (hkind : v.kind = w.kind) (hcompound : v.kind = .tuple ∨ v.kind = .slice)
      (hparts : Forall₂ (Same h) (h.parts v) (h.parts w)) : Same h v w

/-- Tuples and slices consist of values that were there before. -/
def Founded (h : Heap) : Prop :=
  ∀ (r : Ref) (cell : Cell), h.cells[r]? = some cell → ∀ v ∈ cell.parts, v.Before r

theorem founded_empty : ({} : Heap).Founded := by
  intro r cell hcell
  simp at hcell

/-- A heap stays founded when a cell is made of values that are there. -/
theorem Founded.alloc (hfounded : h.Founded) {cell : Cell}
    (hcell : ∀ v ∈ cell.parts, v.Before h.cells.size) : (h.alloc cell).2.Founded := by
  intro r cell' hcell'
  by_cases hr : r = h.cells.size
  · rw [hr, Heap.alloc, Array.getElem?_push_size] at hcell'
    cases hcell'
    rw [hr]
    exact hcell
  · rw [Heap.alloc, Array.getElem?_push, if_neg hr] at hcell'
    exact hfounded r cell' hcell'

theorem Founded.before (hfounded : h.Founded) {u : Value} (hv : v = .tuple r ∨ v = .slice r)
    (hu : u ∈ h.parts v) : u.Before r := by
  cases hcell : h.cells[r]? with
  | none =>
    rcases hv with rfl | rfl
    · simp [parts, tuple, hcell] at hu
    · simp only [parts, slice, hcell, mem_cons, not_mem_nil, or_false, or_self] at hu
      rw [hu]
      trivial
  | some cell =>
    have hpart := hfounded r cell hcell u
    rcases hv with rfl | rfl
    · cases cell with
      | tuple items => exact hpart (by simpa [parts, tuple, hcell, Cell.parts] using hu)
      | _ => simp [parts, tuple, hcell] at hu
    · cases cell with
      | slice start stop step => exact hpart (by simpa [parts, slice, hcell, Cell.parts] using hu)
      | _ =>
        simp only [parts, slice, hcell, mem_cons, not_mem_nil, or_false, or_self] at hu
        rw [hu]
        trivial

/-- A value all of which is shown on so many levels. -/
def Shown (h : Heap) : Nat → Value → Prop
  | 0, _ => False
  | level + 1, v => ∀ u ∈ h.parts v, h.Shown level u

theorem Shown.mono {level' : Nat} (hshown : h.Shown level v) (hle : level ≤ level') :
    h.Shown level' v := by
  induction level generalizing level' v with
  | zero => exact hshown.elim
  | succ level ih =>
    obtain ⟨level', rfl⟩ : ∃ k, level' = k + 1 := ⟨level' - 1, by omega⟩
    exact fun u hu => ih (hshown u hu) (by omega)

/-- A value is shown on as many levels as there were cells before it, and one more. -/
theorem shown_of_before (hfounded : h.Founded) (hv : v.Before r) : h.Shown (r + 1) v := by
  induction r using Nat.strongRecOn generalizing v with
  | ind r ih =>
    intro u hu
    cases v with
    | tuple s => exact (ih s hv (hfounded.before (.inl rfl) hu)).mono hv
    | slice s => exact (ih s hv (hfounded.before (.inr rfl) hu)).mono hv
    | _ => exact absurd hu not_mem_nil

/-! ### Texts of values -/

theorem trails_entryThen (hinner : ∀ v, Text.Trails (inner v)) (e : Dict.Entry) :
    Text.Trails (View.entryThen inner e) :=
  (hinner e.key).comp ((hinner e.value).behind ": ")

theorem trails_textThen (hinner : ∀ v, Text.Trails (inner v)) (v : View) :
    Text.Trails (v.textThen inner) := by
  have hjoin := trails_joinThen hinner ", "
  cases v with
  | none | bool b | int i | float f | str s => exact trails_append _
  | function r name | object r name => exact (trails_append _).behind _
  | list r items => exact ((hjoin items).before _).behind _
  | tuple items =>
    match items with
    | [item] => exact ((hinner item).before _).behind _
    | [] => exact ((hjoin []).before _).behind _
    | a :: b :: items => exact ((hjoin (a :: b :: items)).before _).behind _
  | dict r d =>
    exact ((trails_joinThen (trails_entryThen hinner) ", " d.entries).before _).behind _
  | slice start stop step =>
    have hstep := ((hinner step).before ")").behind ", "
    have hstop := ((hinner stop).comp hstep).behind ", "
    exact ((hinner start).comp hstop).behind "slice("

theorem trails_textTo (level : Nat) (v : Value) : Text.Trails (h.textTo level v) := by
  induction level generalizing v with
  | zero => exact trails_append []
  | succ level ih => exact trails_textThen ih (h.view v)

/-! ### Signatures of values -/

/-- The letters of the names of kinds. -/
def isLower (u : UInt8) : Bool := 97 ≤ u && u ≤ 122

set_option maxRecDepth 2000 in
theorem lower_of_mem_name (k : Kind) : ∀ u ∈ k.name, isLower u = true := by
  cases k <;> decide

theorem name_injective {k k' : Kind} (hname : k.name = k'.name) : k = k' := by
  cases k <;> cases k' <;> first | rfl | exact absurd hname (by decide)

/-- A signature starts with the name of the kind. -/
theorem signatureTo_kind (level : Nat) (v : Value) (rest : Text) :
    ∃ t, h.signatureTo (level + 1) v rest = v.kind.name ++ t ∧ Text.Breaks isLower t := by
  cases v <;> exact ⟨_, rfl, _, _, rfl, rfl⟩

theorem signatureTo_compound (level : Nat) (hv : v.kind = .tuple ∨ v.kind = .slice) (rest : Text) :
    h.signatureTo (level + 1) v rest =
      v.kind.name ++ (58 :: 40 :: joinThen [44] (h.signatureTo level) (h.parts v)
        (41 :: rest)) := by
  cases v with
  | tuple r | slice r => rfl
  | _ => rcases hv with hv | hv <;> cases hv

/-- The references of which a signature gives the place. -/
def place? : Value → Option Ref
  | .list r | .dict r | .function r | .object r => some r
  | _ => none

theorem signatureTo_place (level : Nat) (hv : place? v = some r) (rest : Text) :
    h.signatureTo (level + 1) v rest = v.kind.name ++
      (64 :: 48 :: 120 :: (hex r ++ 58 :: (h.view v).textThen (h.textTo level) rest)) := by
  cases v with
  | list s | dict s | function s | object s =>
    cases hv
    simp only [signatureTo, view, View.signatureThen, address, append_assoc]
    rfl
  | _ => cases hv

theorem breaks_numeral (hx : Text.Stops 41 x) : Text.Breaks isNumeral x := by
  obtain ⟨u, t, rfl, rfl | rfl⟩ := hx <;> exact ⟨_, t, rfl, rfl⟩

theorem breaks_decimal (hx : Text.Stops 41 x) : Text.Breaks isDecimal x := by
  obtain ⟨u, t, rfl, rfl | rfl⟩ := hx <;> exact ⟨_, t, rfl, rfl⟩

/-- What has a place is the same value if the place is the same. -/
theorem place_unique (level : Nat) {s : Ref} (hv : place? v = some r) (hw : place? w = some s)
    (hkind : v.kind = w.kind) (heq : h.signatureTo (level + 1) v x =
      h.signatureTo (level + 1) w y) : v = w ∧ x = y := by
  rw [signatureTo_place level hv, signatureTo_place level hw, hkind] at heq
  have hdigits := (List.cons.inj (List.cons.inj (List.cons.inj (append_cancel_left heq)).2).2).2
  obtain ⟨hplace, hrest⟩ := part_unique (hex_digits r) (hex_digits s) ⟨58, _, rfl, rfl⟩
    ⟨58, _, rfl, rfl⟩ hdigits
  obtain rfl := hex_injective hplace
  have hsame : v = w := by
    cases v <;> cases hv <;> cases w <;> cases hw <;> first | rfl | cases hkind
  subst hsame
  exact ⟨rfl, (trails_textThen (trails_textTo level) (h.view v)).cancel (List.cons.inj hrest).2⟩

theorem signatureTo_ne_close (hv : h.Shown level v) (x y : Text) :
    h.signatureTo level v x ≠ 41 :: y := by
  cases level with
  | zero => exact hv.elim
  | succ level =>
    obtain ⟨t, ht, -⟩ := signatureTo_kind (h := h) level v x
    rw [ht]
    intro heq
    have hfirst : ∀ k : Kind, ∀ t, k.name ++ t ≠ 41 :: y := by
      intro k t heq
      cases k <;> exact absurd (List.cons.inj heq).1 (by decide)
    exact hfirst _ _ heq

theorem trails_signatureTo (level : Nat) (v : Value) : Text.Trails (h.signatureTo level v) := by
  induction level generalizing v with
  | zero => exact trails_append []
  | succ level ih =>
    have htext := trails_textThen (trails_textTo (h := h) level) (h.view v)
    cases v with
    | none | noReceiver | bool b | int i | float f | str t => exact htext.behind _
    | list r | dict r | function r | object r => exact htext.behind _
    | tuple r => exact ((trails_joinThen ih "," (h.tuple r)).before ")").behind "tuple:("
    | slice r =>
      have hstep := ((ih (h.slice r).2.2).before ")").behind ","
      exact ((ih (h.slice r).1).comp (((ih (h.slice r).2.1).comp hstep).behind ",")).behind
        "slice:("

/-- Scalars are told apart by their texts. -/
theorem scalar_unique (level : Nat) (hkind : v.kind = w.kind)
    (hcompound : ¬(v.kind = .tuple ∨ v.kind = .slice)) (hplace : place? v = none)
    (hx : Text.Stops 41 x) (hy : Text.Stops 41 y)
    (heq : h.signatureTo (level + 1) v x = h.signatureTo (level + 1) w y) : h.Same v w ∧ x = y := by
  cases v with
  | none | noReceiver =>
    cases w with
    | none | noReceiver =>
      have htext : ("none:None" : Text) ++ x = "none:None" ++ y := heq
      exact ⟨.identical rfl, append_cancel_left htext⟩
    | _ => cases hkind
  | bool b =>
    cases w with
    | bool b' =>
      have htext := append_cancel_left heq
      cases b <;> cases b'
      · exact ⟨.identical rfl, append_cancel_left htext⟩
      · exact absurd (List.cons.inj htext).1 (by decide)
      · exact absurd (List.cons.inj htext).1 (by decide)
      · exact ⟨.identical rfl, append_cancel_left htext⟩
    | _ => cases hkind
  | int i =>
    cases w with
    | int j =>
      have htext : ofInt i.toInt ++ x = ofInt j.toInt ++ y := append_cancel_left heq
      obtain ⟨hint, hrest⟩ := ofInt_unique (breaks_numeral hx) (breaks_numeral hy) htext
      obtain rfl := Int64.toInt_inj.mp hint
      exact ⟨.identical (Value.identical_self _), hrest⟩
    | _ => cases hkind
  | str t =>
    cases w with
    | str t' =>
      have htext : quote t ++ x = quote t' ++ y := append_cancel_left heq
      obtain ⟨rfl, hrest⟩ := quote_unique htext
      exact ⟨.identical (Value.identical_self _), hrest⟩
    | _ => cases hkind
  | float f =>
    cases w with
    | float g =>
      have htext : Number.floatText f ++ x = Number.floatText g ++ y := append_cancel_left heq
      obtain ⟨hfloat, hrest⟩ := part_unique (floatText_decimal f) (floatText_decimal g)
        (breaks_decimal hx) (breaks_decimal hy) htext
      exact ⟨.float hfloat, hrest⟩
    | _ => cases hkind
  | tuple r => exact absurd (.inl rfl) hcompound
  | slice r => exact absurd (.inr rfl) hcompound
  | list r | dict r | function r | object r => cases hplace

/-- The signature of a value, which is followed by a comma or a parenthesis, tells the value. -/
theorem signatureTo_unique (hv : h.Shown level v) (hw : h.Shown level w) (hx : Text.Stops 41 x)
    (hy : Text.Stops 41 y) (heq : h.signatureTo level v x = h.signatureTo level w y) :
    h.Same v w ∧ x = y := by
  induction level generalizing v w x y with
  | zero => exact hv.elim
  | succ level ih =>
    have hkind : v.kind = w.kind := by
      obtain ⟨t, ht, hbreaks⟩ := signatureTo_kind (h := h) level v x
      obtain ⟨t', ht', hbreaks'⟩ := signatureTo_kind (h := h) level w y
      rw [ht, ht'] at heq
      exact name_injective (part_unique (lower_of_mem_name _) (lower_of_mem_name _) hbreaks
        hbreaks' heq).1
    by_cases hcompound : v.kind = .tuple ∨ v.kind = .slice
    · rw [signatureTo_compound level hcompound,
        signatureTo_compound level (hkind ▸ hcompound), hkind] at heq
      have hparts := (List.cons.inj (List.cons.inj (append_cancel_left heq)).2).2
      have hone : ∀ u ∈ h.parts v, ∀ u' ∈ h.parts w, ∀ x y, Text.Stops 41 x → Text.Stops 41 y →
          h.signatureTo level u x = h.signatureTo level u' y → h.Same u u' ∧ x = y :=
        fun u hu u' hu' x y hx hy => ih (hv u hu) (hw u' hu') hx hy
      have hstart : ∀ u ∈ h.parts v ++ h.parts w, ∀ x y, h.signatureTo level u x ≠ 41 :: y :=
        fun u hu => signatureTo_ne_close ((mem_append.mp hu).elim (hv u) (hw u))
      obtain ⟨hsame, hrest⟩ := joinThen_unique (by decide) hone hstart hparts
      exact ⟨.compound hkind hcompound hsame, hrest⟩
    cases hplace : place? v with
    | some r =>
      obtain ⟨s, hs⟩ : ∃ s, place? w = some s := by
        cases v <;> cases hplace <;> cases w <;> first | exact ⟨_, rfl⟩ | cases hkind
      obtain ⟨rfl, hrest⟩ := place_unique level hplace hs hkind heq
      exact ⟨.identical (Value.identical_self v), hrest⟩
    | none => exact scalar_unique level hkind hcompound hplace hx hy heq

/-- Values that are the same have the same signature. -/
theorem Same.signatureTo_eq (hsame : h.Same v w) (level : Nat) (rest : Text) :
    h.signatureTo level v rest = h.signatureTo level w rest := by
  induction level generalizing v w rest with
  | zero => rfl
  | succ level ih =>
    cases hsame with
    | identical hidentical =>
      have hview : h.view v = h.view w := by
        by_cases hnone : v.kind = .none
        · cases v <;> cases hnone <;> cases w <;> first | rfl | cases hidentical
        · have hv : v ≠ .noReceiver := fun heq => hnone (heq ▸ rfl)
          have hw : w ≠ .noReceiver := by
            rintro rfl
            cases v <;> first | exact hnone rfl | cases hidentical
          rw [Value.eq_of_identical hv hw hidentical]
      rw [signatureTo, signatureTo, hview]
    | float htext =>
      simp only [signatureTo, view, View.signatureThen, View.textThen, htext, View.kind]
    | compound hkind hcompound hparts =>
      rw [signatureTo_compound level hcompound,
        signatureTo_compound level (hkind ▸ hcompound), hkind]
      have hone : ∀ u u', h.Same u u' → ∀ rest,
          h.signatureTo level u rest = h.signatureTo level u' rest := fun _ _ hsame => ih hsame
      rw [joinThen_congr hone hparts]

end Heap

/-! ## Expressions -/

namespace Node

/-- The words that signatures start with. -/
def words : List Text :=
  ["Const", "Var", "Unary", "Binary", "Compare", "Logical", "Cond", "Collection", "Subscript",
    "SliceObj", "Slice", "Attr", "Call", "Store", "Do", "Next"]

/-- The number of the word for an expression. -/
def wordIndex : Node → Fin words.length
  | .const _ _ => ⟨0, by decide⟩
  | .var _ => ⟨1, by decide⟩
  | .unary _ _ => ⟨2, by decide⟩
  | .binary _ _ _ => ⟨3, by decide⟩
  | .compare _ _ => ⟨4, by decide⟩
  | .logical _ _ => ⟨5, by decide⟩
  | .cond _ _ _ => ⟨6, by decide⟩
  | .collection _ _ => ⟨7, by decide⟩
  | .subscript _ _ => ⟨8, by decide⟩
  | .sliceObj _ _ _ => ⟨9, by decide⟩
  | .slice _ _ _ _ => ⟨10, by decide⟩
  | .attr _ _ => ⟨11, by decide⟩
  | .call _ _ _ _ _ _ => ⟨12, by decide⟩
  | .store _ _ => ⟨13, by decide⟩
  | .sequence _ => ⟨14, by decide⟩
  | .next _ => ⟨15, by decide⟩

/-- What stands behind the opening parenthesis of a signature, then the rest. -/
def insideThen : Node → Text → Text
  | .const _ valueSignature, rest => valueSignature ++ 41 :: rest
  | .var name, rest => quote name ++ 41 :: rest
  | .unary op operand, rest => op.symbol ++ 44 :: operand.signatureThen (41 :: rest)
  | .binary op left right, rest =>
    op.symbol ++ 44 :: left.signatureThen (44 :: right.signatureThen (41 :: rest))
  | .compare subject links, rest => subject.signatureThen (linksThen links (41 :: rest))
  | .logical junction operands, rest =>
    junction.word ++ 44 :: 91 :: signaturesThen operands (93 :: 41 :: rest)
  | .cond test yes no, rest =>
    test.signatureThen (44 :: yes.signatureThen (44 :: no.signatureThen (41 :: rest)))
  | .collection kind elements, rest =>
    kind.word ++ 44 :: 91 :: signaturesThen elements (93 :: 41 :: rest)
  | .subscript base index, rest => base.signatureThen (44 :: index.signatureThen (41 :: rest))
  | .sliceObj start stop step, rest =>
    boundThen start (44 :: boundThen stop (44 :: boundThen step (41 :: rest)))
  | .slice base start stop step, rest =>
    base.signatureThen (44 :: boundThen start
      (44 :: boundThen stop (44 :: boundThen step (41 :: rest))))
  | .attr base name, rest => base.signatureThen (44 :: (quote name ++ 41 :: rest))
  | .call callee args star keywords doubleStar method, rest =>
    callee.signatureThen (44 :: 91 :: signaturesThen args (93 :: 44 :: 91 :: keywordsThen keywords
      (93 :: 44 :: boundThen star (44 :: boundThen doubleStar
        (44 :: (ofBool method ++ 41 :: rest))))))
  | .store name value, rest => quote name ++ 44 :: value.signatureThen (41 :: rest)
  | .sequence steps, rest => 91 :: signaturesThen steps (93 :: 41 :: rest)
  | .next pair, rest => pair.signatureThen (41 :: rest)

theorem signatureThen_eq (n : Node) (rest : Text) :
    n.signatureThen rest = words.get n.wordIndex ++ 40 :: n.insideThen rest := by
  cases n <;> (simp only [signatureThen, append_assoc]; rfl)

/-- The constants of an expression are values of the heap and have their signatures in it. -/
def MadeIn (h : Heap) (n : Node) : Prop :=
  n.Everywhere fun m => ∀ v s, m = .const v s → s = h.signature v ∧ v.Before h.cells.size

variable {n m : Node}

theorem MadeIn.child (hn : n.MadeIn h) (hm : m ∈ n.children) : m.MadeIn h :=
  (everywhere_iff.mp hn).2 m hm

theorem index_unique (heq : n.signatureThen x = m.signatureThen y) :
    n.wordIndex = m.wordIndex ∧ n.insideThen x = m.insideThen y := by
  have hopen : ∀ word ∈ words, (40 : UInt8) ∉ word := by decide
  have hnodup : words.Nodup := by decide
  rw [signatureThen_eq, signatureThen_eq] at heq
  obtain ⟨hword, hinside⟩ :=
    cut_unique (hopen _ (get_mem _ _)) (hopen _ (get_mem _ _)) heq
  exact ⟨nodup_iff_injective_get.mp hnodup hword, hinside⟩

set_option maxRecDepth 2000 in
/-- A signature starts with a capital letter. -/
theorem signatureThen_ne (n : Node) {u : UInt8} (hu : u = 41 ∨ u = 45 ∨ u = 93) (x y : Text) :
    n.signatureThen x ≠ u :: y := by
  have hcapital : ∀ word ∈ words, word ≠ [] ∧ ∀ c ∈ word.head?, c ≠ 41 ∧ c ≠ 45 ∧
      c ≠ 93 := by decide
  obtain ⟨hsome, hfirst⟩ := hcapital _ (get_mem words n.wordIndex)
  obtain ⟨c, t, hword⟩ := exists_cons_of_ne_nil hsome
  rw [hword] at hfirst
  obtain ⟨h41, h45, h93⟩ := hfirst c rfl
  rw [signatureThen_eq, hword]
  intro heq
  obtain ⟨rfl, -⟩ := List.cons.inj heq
  rcases hu with rfl | rfl | rfl
  · exact h41 rfl
  · exact h45 rfl
  · exact h93 rfl

/-- The signatures of two expressions are told apart, whatever follows. -/
def Told (h : Heap) (n m : Node) : Prop :=
  ∀ x y, n.signatureThen x = m.signatureThen y → Matches h.Same n m ∧ x = y

section Told

theorem signaturesThen_eq (ns : List Node) (rest : Text) :
    signaturesThen ns rest = joinThen [44] signatureThen ns rest := by
  induction ns with
  | nil => rfl
  | cons n ns ih =>
    cases ns with
    | nil => rfl
    | cons m ns =>
      change n.signatureThen ([44] ++ signaturesThen (m :: ns) rest) = _
      rw [ih]
      rfl

theorem signatures_unique (hone : ∀ n ∈ ns, ∀ m ∈ ms, Told h n m)
    (heq : signaturesThen ns (93 :: x) = signaturesThen ms (93 :: y)) :
    Forall₂ (Matches h.Same) ns ms ∧ x = y := by
  rw [signaturesThen_eq, signaturesThen_eq] at heq
  exact joinThen_unique (by decide) (fun n hn m hm x y _ _ => hone n hn m hm x y)
    (fun n _ x y => n.signatureThen_ne (.inr (.inr rfl)) x y) heq

theorem keywordsThen_eq (keywords : List (Text × Node)) (rest : Text) :
    keywordsThen keywords rest = joinThen [44]
      (fun k rest => quote k.1 ++ 61 :: k.2.signatureThen rest) keywords rest := by
  induction keywords with
  | nil => rfl
  | cons k keywords ih =>
    obtain ⟨name, n⟩ := k
    cases keywords with
    | nil =>
      rw [keywordsThen, append_assoc]
      rfl
    | cons l keywords =>
      rw [keywordsThen, ih, append_assoc]
      · rfl
      · exact nofun

theorem keywords_unique (hone : ∀ n ∈ ks.map Prod.snd, ∀ m ∈ ls.map Prod.snd, Told h n m)
    (heq : keywordsThen ks (93 :: x) = keywordsThen ls (93 :: y)) :
    (ks.map Prod.fst = ls.map Prod.fst ∧
      Forall₂ (Matches h.Same) (ks.map Prod.snd) (ls.map Prod.snd)) ∧ x = y := by
  rw [keywordsThen_eq, keywordsThen_eq] at heq
  rw [← forall₂_pairs]
  refine joinThen_unique (by decide) (fun k hk l hl x y _ _ heq => ?_) (fun k _ x y heq => ?_) heq
  · obtain ⟨hname, hrest⟩ := quote_unique heq
    obtain ⟨hsame, hend⟩ := hone k.2 (mem_map_of_mem hk) l.2 (mem_map_of_mem hl) x y
      (List.cons.inj hrest).2
    exact ⟨⟨hname, hsame⟩, hend⟩
  · exact absurd (List.cons.inj heq).1 (by decide)

/-- Words without commas that differ are told apart before a comma. -/
theorem word_unique (word : α → Text)
    (hwords : ∀ a b, (44 : UInt8) ∉ word a ∧ (word a = word b → a = b)) {a b : α}
    (heq : word a ++ 44 :: x = word b ++ 44 :: y) : a = b ∧ x = y := by
  obtain ⟨hword, hrest⟩ := cut_unique (hwords a b).1 (hwords b a).1 heq
  exact ⟨(hwords a b).2 hword, hrest⟩

theorem compareOp_unique {op op' : CompareOp} (heq : op.symbol ++ 44 :: x = op'.symbol ++ 44 :: y) :
    op = op' ∧ x = y :=
  word_unique CompareOp.symbol (fun a b => by cases a <;> cases b <;> decide) heq

theorem unaryOp_unique {op op' : UnaryOp} (heq : op.symbol ++ 44 :: x = op'.symbol ++ 44 :: y) :
    op = op' ∧ x = y :=
  word_unique UnaryOp.symbol (fun a b => by cases a <;> cases b <;> decide) heq

theorem binaryOp_unique {op op' : BinaryOp} (heq : op.symbol ++ 44 :: x = op'.symbol ++ 44 :: y) :
    op = op' ∧ x = y :=
  word_unique BinaryOp.symbol (fun a b => by cases a <;> cases b <;> decide) heq

theorem junction_unique {j j' : Junction} (heq : j.word ++ 44 :: x = j'.word ++ 44 :: y) :
    j = j' ∧ x = y :=
  word_unique Junction.word (fun a b => by cases a <;> cases b <;> decide) heq

theorem collectionKind_unique {k k' : CollectionKind}
    (heq : k.word ++ 44 :: x = k'.word ++ 44 :: y) : k = k' ∧ x = y :=
  word_unique CollectionKind.word (fun a b => by cases a <;> cases b <;> decide) heq

theorem flag_unique {b b' : Bool} (heq : ofBool b ++ 41 :: x = ofBool b' ++ 41 :: y) :
    b = b' ∧ x = y := by
  cases b <;> cases b'
  · exact ⟨rfl, (List.cons.inj (append_cancel_left heq)).2⟩
  · exact absurd (List.cons.inj heq).1 (by decide)
  · exact absurd (List.cons.inj heq).1 (by decide)
  · exact ⟨rfl, (List.cons.inj (append_cancel_left heq)).2⟩

theorem linksThen_cons (op : CompareOp) (n : Node) (links : List (CompareOp × Node)) (rest : Text) :
    linksThen ((op, n) :: links) rest = 44 ::
      (op.symbol ++ 44 :: n.signatureThen (linksThen links rest)) := by
  rw [linksThen, append_assoc, append_assoc]
  rfl

theorem links_unique {ks ls : List (CompareOp × Node)}
    (hone : ∀ n ∈ ks.map Prod.snd, ∀ m ∈ ls.map Prod.snd, Told h n m)
    (heq : linksThen ks (41 :: x) = linksThen ls (41 :: y)) :
    (ks.map Prod.fst = ls.map Prod.fst ∧
      Forall₂ (Matches h.Same) (ks.map Prod.snd) (ls.map Prod.snd)) ∧ x = y := by
  induction ks generalizing ls with
  | nil =>
    cases ls with
    | nil => exact ⟨⟨rfl, .nil⟩, (List.cons.inj heq).2⟩
    | cons l ls =>
      rw [linksThen_cons] at heq
      exact absurd (List.cons.inj heq).1 (by decide)
  | cons k ks ih =>
    cases ls with
    | nil =>
      rw [linksThen_cons] at heq
      exact absurd (List.cons.inj heq).1 (by decide)
    | cons l ls =>
      rw [linksThen_cons, linksThen_cons] at heq
      obtain ⟨hop, hrest⟩ := compareOp_unique (List.cons.inj heq).2
      obtain ⟨hsame, hmore⟩ := hone k.2 mem_cons_self l.2 mem_cons_self _ _ hrest
      obtain ⟨⟨hops, hothers⟩, hend⟩ := ih (fun n hn m hm =>
        hone n (mem_cons_of_mem _ hn) m (mem_cons_of_mem _ hm)) hmore
      refine ⟨⟨?_, .cons hsame hothers⟩, hend⟩
      rw [map_cons, map_cons, hop, hops]

theorem bound_unique (hone : ∀ n ∈ a.toList, ∀ m ∈ b.toList, Told h n m)
    (heq : boundThen a x = boundThen b y) : Option.Rel (Matches h.Same) a b ∧ x = y := by
  cases a with
  | none =>
    cases b with
    | none => exact ⟨.none, (List.cons.inj heq).2⟩
    | some m => exact absurd heq.symm (m.signatureThen_ne (.inr (.inl rfl)) _ _)
  | some n =>
    cases b with
    | none => exact absurd heq (n.signatureThen_ne (.inr (.inl rfl)) _ _)
    | some m =>
      obtain ⟨hsame, hend⟩ := hone n (by simp) m (by simp) x y heq
      exact ⟨.some hsame, hend⟩

theorem const_unique (hfounded : h.Founded) {s t : Text} (hn : (Node.const v s).MadeIn h)
    (hm : (Node.const w t).MadeIn h) (heq : s ++ 41 :: x = t ++ 41 :: y) : h.Same v w ∧ x = y := by
  obtain ⟨rfl, hbefore⟩ := (everywhere_iff.mp hn).1 v s rfl
  obtain ⟨rfl, hbefore'⟩ := (everywhere_iff.mp hm).1 w t rfl
  unfold Heap.signature at heq
  rw [← Heap.trails_signatureTo, ← Heap.trails_signatureTo] at heq
  obtain ⟨hsame, hrest⟩ := Heap.signatureTo_unique (Heap.shown_of_before hfounded hbefore)
    (Heap.shown_of_before hfounded hbefore') (stops_close 41 x) (stops_close 41 y) heq
  exact ⟨hsame, (List.cons.inj hrest).2⟩

/-- The bounds of a slice are told apart. -/
theorem bounds_unique {c a' b' c' : Option Node}
    (hone : ∀ n ∈ present [a, b, c], ∀ m ∈ present [a', b', c'], Told h n m)
    (heq : boundThen a (44 :: boundThen b (44 :: boundThen c (41 :: x))) =
      boundThen a' (44 :: boundThen b' (44 :: boundThen c' (41 :: y)))) :
    (Option.Rel (Matches h.Same) a a' ∧ Option.Rel (Matches h.Same) b b' ∧
      Option.Rel (Matches h.Same) c c') ∧ x = y := by
  simp only [present_cons, present_nil, append_nil] at hone
  obtain ⟨ha, hrest⟩ := bound_unique (fun n hn m hm => hone n (by simp [hn]) m (by simp [hm])) heq
  obtain ⟨hb, hrest'⟩ := bound_unique
    (fun n hn m hm => hone n (by simp [hn]) m (by simp [hm])) (List.cons.inj hrest).2
  obtain ⟨hc, hend⟩ := bound_unique
    (fun n hn m hm => hone n (by simp [hn]) m (by simp [hm])) (List.cons.inj hrest').2
  exact ⟨⟨ha, hb, hc⟩, (List.cons.inj hend).2⟩

theorem call_unique {callee callee' : Node} {args args' : List Node} {star star' : Option Node}
    {keywords keywords' : List (Text × Node)} {doubleStar doubleStar' : Option Node}
    {method method' : Bool}
    (hone : ∀ n ∈ (Node.call callee args star keywords doubleStar method).children,
      ∀ m ∈ (Node.call callee' args' star' keywords' doubleStar' method').children, Told h n m)
    (heq : (Node.call callee args star keywords doubleStar method).insideThen x =
      (Node.call callee' args' star' keywords' doubleStar' method').insideThen y) :
    SameForm (Matches h.Same) (.call callee args star keywords doubleStar method)
      (.call callee' args' star' keywords' doubleStar' method') ∧ x = y := by
  simp only [children, present_cons, present_nil, append_nil] at hone
  obtain ⟨hcallee, hrest⟩ := hone callee (by simp) callee' (by simp) _ _ heq
  obtain ⟨hargs, hrest1⟩ := signatures_unique
    (fun n hn m hm => hone n (by simp [hn]) m (by simp [hm]))
      (List.cons.inj (List.cons.inj hrest).2).2
  obtain ⟨⟨hnames, hkeywords⟩, hrest2⟩ := keywords_unique
    (fun n hn m hm => hone n (by simp [hn]) m (by simp [hm]))
      (List.cons.inj (List.cons.inj hrest1).2).2
  obtain ⟨hstar, hrest3⟩ := bound_unique
    (fun n hn m hm => hone n (by simp [hn]) m (by simp [hm])) (List.cons.inj hrest2).2
  obtain ⟨hdoubleStar, hrest4⟩ := bound_unique
    (fun n hn m hm => hone n (by simp [hn]) m (by simp [hm])) (List.cons.inj hrest3).2
  obtain ⟨rfl, hend⟩ := flag_unique (List.cons.inj hrest4).2
  exact ⟨.call method hcallee hargs hstar hnames hkeywords hdoubleStar, hend⟩

/-- A signature tells the expression, whatever follows. -/
theorem told (hfounded : h.Founded) (n : Node) : n.MadeIn h → ∀ m : Node, m.MadeIn h →
    Told h n m := by
  induction n using descent with
  | h n ih _ =>
    intro hn m hm x y heq
    obtain ⟨hindex, hinside⟩ := index_unique heq
    have hone : ∀ a ∈ n.children, ∀ b ∈ m.children, Told h a b := fun a ha b hb =>
      ih a ha (hn.child ha) b (hm.child hb)
    cases n with
    | const v s =>
      cases m with
      | const w t =>
        obtain ⟨hsame, hend⟩ := const_unique hfounded hn hm hinside
        exact ⟨.const hsame, hend⟩
      | _ => cases hindex
    | var name =>
      cases m with
      | var name' =>
        obtain ⟨rfl, hrest⟩ := quote_unique hinside
        exact ⟨.operands (.var name), (List.cons.inj hrest).2⟩
      | _ => cases hindex
    | unary op a =>
      cases m with
      | unary op' b =>
        obtain ⟨rfl, hrest⟩ := unaryOp_unique hinside
        obtain ⟨hsame, hend⟩ := hone a (by simp) b (by simp) _ _ hrest
        exact ⟨.operands (.unary op hsame), (List.cons.inj hend).2⟩
      | _ => cases hindex
    | binary op a b =>
      cases m with
      | binary op' a' b' =>
        obtain ⟨rfl, hrest⟩ := binaryOp_unique hinside
        obtain ⟨hleft, hrest'⟩ := hone a (by simp) a' (by simp) _ _ hrest
        obtain ⟨hright, hend⟩ := hone b (by simp) b' (by simp) _ _
          (List.cons.inj hrest').2
        exact ⟨.operands (.binary op hleft hright), (List.cons.inj hend).2⟩
      | _ => cases hindex
    | compare subject links =>
      cases m with
      | compare subject' links' =>
        obtain ⟨hsubject, hrest⟩ := hone subject (by simp) subject' (by simp) _ _
          hinside
        obtain ⟨⟨hops, hoperands⟩, hend⟩ := links_unique (fun a ha b hb =>
          hone a (mem_cons_of_mem _ ha) b (mem_cons_of_mem _ hb)) hrest
        exact ⟨.operands (.compare hsubject hops hoperands), hend⟩
      | _ => cases hindex
    | logical junction operands =>
      cases m with
      | logical junction' operands' =>
        obtain ⟨rfl, hrest⟩ := junction_unique hinside
        obtain ⟨hoperands, hend⟩ := signatures_unique hone (List.cons.inj hrest).2
        exact ⟨.operands (.logical junction hoperands), (List.cons.inj hend).2⟩
      | _ => cases hindex
    | cond test yes no =>
      cases m with
      | cond test' yes' no' =>
        obtain ⟨htest, hrest⟩ := hone test (by simp) test' (by simp) _ _ hinside
        obtain ⟨hyes, hrest'⟩ := hone yes (by simp) yes' (by simp) _ _
          (List.cons.inj hrest).2
        obtain ⟨hno, hend⟩ := hone no (by simp) no' (by simp) _ _
          (List.cons.inj hrest').2
        exact ⟨.operands (.cond htest hyes hno), (List.cons.inj hend).2⟩
      | _ => cases hindex
    | collection kind elements =>
      cases m with
      | collection kind' elements' =>
        obtain ⟨rfl, hrest⟩ := collectionKind_unique hinside
        obtain ⟨helements, hend⟩ := signatures_unique hone (List.cons.inj hrest).2
        exact ⟨.operands (.collection kind helements), (List.cons.inj hend).2⟩
      | _ => cases hindex
    | subscript base index =>
      cases m with
      | subscript base' index' =>
        obtain ⟨hbase, hrest⟩ := hone base (by simp) base' (by simp) _ _ hinside
        obtain ⟨hposition, hend⟩ := hone index (by simp) index' (by simp) _ _
          (List.cons.inj hrest).2
        exact ⟨.operands (.subscript hbase hposition), (List.cons.inj hend).2⟩
      | _ => cases hindex
    | sliceObj start stop step =>
      cases m with
      | sliceObj start' stop' step' =>
        obtain ⟨⟨hstart, hstop, hstep⟩, hend⟩ := bounds_unique hone hinside
        exact ⟨.operands (.sliceObj hstart hstop hstep), hend⟩
      | _ => cases hindex
    | slice base start stop step =>
      cases m with
      | slice base' start' stop' step' =>
        obtain ⟨hbase, hrest⟩ := hone base mem_cons_self base' mem_cons_self _ _ hinside
        obtain ⟨⟨hstart, hstop, hstep⟩, hend⟩ := bounds_unique (fun a ha b hb =>
          hone a (mem_cons_of_mem _ ha) b (mem_cons_of_mem _ hb)) (List.cons.inj hrest).2
        exact ⟨.operands (.slice hbase hstart hstop hstep), hend⟩
      | _ => cases hindex
    | attr base name =>
      cases m with
      | attr base' name' =>
        obtain ⟨hbase, hrest⟩ := hone base (by simp) base' (by simp) _ _ hinside
        obtain ⟨rfl, hend⟩ := quote_unique (List.cons.inj hrest).2
        exact ⟨.operands (.attr name hbase), (List.cons.inj hend).2⟩
      | _ => cases hindex
    | call callee args star keywords doubleStar method =>
      cases m with
      | call callee' args' star' keywords' doubleStar' method' =>
        obtain ⟨hform, hend⟩ := call_unique hone hinside
        exact ⟨.operands hform, hend⟩
      | _ => cases hindex
    | store name value =>
      cases m with
      | store name' value' =>
        obtain ⟨rfl, hrest⟩ := quote_unique hinside
        obtain ⟨hvalue, hend⟩ := hone value (by simp) value' (by simp) _ _
          (List.cons.inj hrest).2
        exact ⟨.operands (.store name hvalue), (List.cons.inj hend).2⟩
      | _ => cases hindex
    | sequence steps =>
      cases m with
      | sequence steps' =>
        obtain ⟨hsteps, hend⟩ := signatures_unique hone (List.cons.inj hinside).2
        exact ⟨.operands (.sequence hsteps), (List.cons.inj hend).2⟩
      | _ => cases hindex
    | next pair =>
      cases m with
      | next pair' =>
        obtain ⟨hpair, hend⟩ := hone pair (by simp) pair' (by simp) _ _ hinside
        exact ⟨.operands (.next hpair), (List.cons.inj hend).2⟩
      | _ => cases hindex

end Told

/-! ### The same expression, the same signature -/

/-- The signatures of two expressions are the same, whatever follows. -/
def SameThen (n m : Node) : Prop := n.signatureThen = m.signatureThen

theorem signaturesThen_congr (h : Forall₂ SameThen ns ms) (rest : Text) :
    signaturesThen ns rest = signaturesThen ms rest := by
  have hone : ∀ n m, SameThen n m → ∀ rest, n.signatureThen rest = m.signatureThen rest :=
    fun _ _ => congrFun
  rw [signaturesThen_eq, signaturesThen_eq]
  exact joinThen_congr hone h rest

theorem boundThen_congr (h : Option.Rel SameThen a b) : boundThen a = boundThen b := by
  cases h with
  | none => rfl
  | some h =>
    funext rest
    exact congrFun h rest

theorem keywordsThen_congr (hnames : ks.map Prod.fst = ls.map Prod.fst)
    (h : Forall₂ SameThen (ks.map Prod.snd) (ls.map Prod.snd)) (rest : Text) :
    keywordsThen ks rest = keywordsThen ls rest := by
  rw [keywordsThen_eq, keywordsThen_eq]
  refine joinThen_congr (fun k l hkl rest => ?_) (forall₂_pairs.mpr ⟨hnames, h⟩) rest
  rw [hkl.1, hkl.2]

theorem linksThen_congr {ks ls : List (CompareOp × Node)} (hops : ks.map Prod.fst = ls.map Prod.fst)
    (h : Forall₂ SameThen (ks.map Prod.snd) (ls.map Prod.snd)) (rest : Text) :
    linksThen ks rest = linksThen ls rest := by
  have hpairs := forall₂_pairs.mpr ⟨hops, h⟩
  clear hops h
  induction hpairs with
  | nil => rfl
  | @cons k l ks ls hfirst _ ih =>
    rw [linksThen_cons, linksThen_cons, ih, hfirst.1, hfirst.2]

/-- SameForm expressions whose operands have the same signatures have the same signature. -/
theorem SameForm.sameThen (h : SameForm SameThen n m) : SameThen n m := by
  funext rest
  rw [signatureThen_eq, signatureThen_eq]
  have hword : n.wordIndex = m.wordIndex := by
    cases h <;> rfl
  rw [hword]
  congr 2
  cases h with
  | var name => rfl
  | unary op ha => rw [insideThen, insideThen, ha]
  | binary op ha hb => rw [insideThen, insideThen, ha, hb]
  | compare hsubject hops hlinks =>
    rw [insideThen, insideThen, hsubject, linksThen_congr hops hlinks]
  | logical junction hns => rw [insideThen, insideThen, signaturesThen_congr hns]
  | cond ha hb hc => rw [insideThen, insideThen, ha, hb, hc]
  | collection kind hns => rw [insideThen, insideThen, signaturesThen_congr hns]
  | subscript ha hb => rw [insideThen, insideThen, ha, hb]
  | sliceObj ha hb hc =>
    rw [insideThen, insideThen, boundThen_congr ha, boundThen_congr hb, boundThen_congr hc]
  | slice hbase ha hb hc =>
    rw [insideThen, insideThen, hbase, boundThen_congr ha, boundThen_congr hb, boundThen_congr hc]
  | attr name ha => rw [insideThen, insideThen, ha]
  | call method hcallee hargs hstar hnames hkeywords hdoubleStar =>
    rw [insideThen, insideThen, hcallee, signaturesThen_congr hargs,
      keywordsThen_congr hnames hkeywords, boundThen_congr hstar, boundThen_congr hdoubleStar]
  | store name ha => rw [insideThen, insideThen, ha]
  | sequence hns => rw [insideThen, insideThen, signaturesThen_congr hns]
  | next ha => rw [insideThen, insideThen, ha]

theorem Matches.sameThen (n : Node) : n.MadeIn h → ∀ m : Node, m.MadeIn h →
    n.Matches h.Same m → SameThen n m := by
  induction n using descent with
  | h n ih _ =>
    intro hn m hm hmatches
    cases hmatches with
    | @const v w s t hvalue =>
      obtain ⟨rfl, -⟩ := (everywhere_iff.mp hn).1 v s rfl
      obtain ⟨rfl, -⟩ := (everywhere_iff.mp hm).1 w t rfl
      funext rest
      rw [signatureThen_eq, signatureThen_eq, insideThen, insideThen, Heap.signature,
        Heap.signature, hvalue.signatureTo_eq]
      rfl
    | operands hform =>
      exact (hform.imp_mem fun a ha b hb => ih a ha (hn.child ha) b (hm.child hb)).sameThen

/-- **Signatures are unambiguous.** Two expressions that were made in one state of the heap have the
same signature if and only if they are the same: of one form, with the same operators, names, flags
and optional operands, with operands that are the same in pairs, and with constants that are the
same scalars, the same references, or tuples and slices of the same parts. -/
theorem signature_eq_iff {h : Heap} (hfounded : h.Founded) {n m : Node} (hn : n.MadeIn h)
    (hm : m.MadeIn h) : n.signature = m.signature ↔ n.Matches h.Same m := by
  constructor
  · intro heq
    exact (told hfounded n hn m hm [] [] heq).1
  · intro hmatches
    exact congrFun (Matches.sameThen n hn m hm hmatches) []

end Node

/-- A heap with two equal tuples. -/
def Heap.twins : Heap := (({} : Heap).alloc (.tuple [.int 7])).2.alloc (.tuple [.int 7]) |>.2

theorem Heap.founded_twins : twins.Founded := by
  apply Founded.alloc
  · apply founded_empty.alloc
    simp [Cell.parts, Value.Before]
  · simp [Cell.parts, Value.Before]

theorem Heap.parts_twins (hr : r < 2) : twins.parts (.tuple r) = [.int 7] := by
  obtain rfl | rfl : r = 0 ∨ r = 1 := by omega
  · rfl
  · rfl

theorem Node.madeIn_twins (hr : r < 2) :
    (Node.const (.tuple r) (Heap.twins.signature (.tuple r))).MadeIn Heap.twins := by
  rw [MadeIn, everywhere_iff]
  refine ⟨?_, nofun⟩
  rintro v s ⟨⟩
  exact ⟨rfl, hr⟩

theorem Node.signature_eq_twins :
    (Node.const (.tuple 0) (Heap.twins.signature (.tuple 0))).signature =
      (Node.const (.tuple 1) (Heap.twins.signature (.tuple 1))).signature := by
  rw [signature_eq_iff Heap.founded_twins (madeIn_twins (by decide)) (madeIn_twins (by decide))]
  apply Matches.const
  refine .compound rfl (.inl rfl) ?_
  rw [Heap.parts_twins (by decide), Heap.parts_twins (by decide)]
  exact .cons (.identical (Value.identical_self _)) .nil

end ExprBackend
