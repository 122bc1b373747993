import Mathlib.Algebra.Order.Ring.Int
import Mathlib.Data.List.Basic
import ExprBackend.Number.Real
import ExprBackend.Text.Quoted

/-! # Texts that can be read back

What is written can be read back if it shows where it ends: a number ends where
something else than a digit follows, and a quoted text at the quote that has no
backslash before it. A quoted text gives the pieces of the original, and those
give its bytes.
-/

namespace ExprBackend.Text

open List

variable {a b x y : Text} {u : UInt8} {m n more : Nat} {i j : Int} {c d : Char} {rest s t : Text}
  {p : Piece}

/-! ## Where a part ends -/

/-- The text starts with a byte that has not the given property. -/
def Breaks (p : UInt8 → Bool) (x : Text) : Prop := ∃ u t, x = u :: t ∧ p u = false

/-- Bytes with a property end where a byte without it follows. -/
theorem part_unique {p : UInt8 → Bool} (ha : ∀ u ∈ a, p u = true) (hb : ∀ u ∈ b, p u = true)
    (hx : Breaks p x) (hy : Breaks p y) (h : a ++ x = b ++ y) : a = b ∧ x = y := by
  induction a generalizing b with
  | nil =>
    cases b with
    | nil => exact ⟨rfl, h⟩
    | cons v b =>
      obtain ⟨u, t, rfl, hu⟩ := hx
      obtain ⟨rfl, -⟩ := List.cons.inj h
      rw [hb u mem_cons_self] at hu
      cases hu
  | cons u a ih =>
    cases b with
    | nil =>
      obtain ⟨v, t, rfl, hv⟩ := hy
      obtain ⟨rfl, -⟩ := List.cons.inj h
      rw [ha u mem_cons_self] at hv
      cases hv
    | cons v b =>
      obtain ⟨rfl, hrest⟩ := List.cons.inj h
      obtain ⟨rfl, hxy⟩ := ih (fun w hw => ha w (mem_cons_of_mem u hw))
        (fun w hw => hb w (mem_cons_of_mem u hw)) hrest
      exact ⟨rfl, hxy⟩

/-- A part without a byte ends where the byte follows. -/
theorem cut_unique (ha : u ∉ a) (hb : u ∉ b) (h : a ++ u :: x = b ++ u :: y) : a = b ∧ x = y := by
  have hbreaks : ∀ t, Breaks (· != u) (u :: t) := fun t => ⟨u, t, rfl, by simp⟩
  have hother : ∀ {t : Text}, u ∉ t → ∀ v ∈ t, (v != u) = true := by
    intro t ht v hv
    rw [bne_iff_ne]
    rintro rfl
    exact ht hv
  obtain ⟨rfl, hrest⟩ := part_unique (hother ha) (hother hb) (hbreaks x) (hbreaks y) h
  exact ⟨rfl, (List.cons.inj hrest).2⟩

/-! ## Numbers -/

def isDigit (u : UInt8) : Bool := (48 ≤ u && u ≤ 57) || (97 ≤ u && u ≤ 102)

def digitValue (u : UInt8) : Nat := if u ≤ 57 then u.toNat - 48 else u.toNat - 87

def digitsValue (base : Nat) (t : Text) : Nat := t.foldl (fun n u => base * n + digitValue u) 0

theorem digit_read : ∀ d < 16, isDigit d.digitChar.toNat.toUInt8 = true ∧
    digitValue d.digitChar.toNat.toUInt8 = d := by
  decide

/-- The digits of a number are digits, and stand for it. -/
theorem digits_read (base : Nat) (hlow : 1 < base) (hhigh : base ≤ 16) (n : Nat) :
    (∀ u ∈ ofChars (Nat.toDigits base n), isDigit u = true) ∧
      digitsValue base (ofChars (Nat.toDigits base n)) = n := by
  induction n using Nat.strongRecOn with
  | ind n ih =>
    rw [Nat.toDigits_eq_if hlow]
    by_cases hsmall : n < base
    · obtain ⟨hdigit, hvalue⟩ := digit_read n (by omega)
      rw [if_pos hsmall]
      refine ⟨fun u hu => ?_, ?_⟩
      · obtain rfl := mem_singleton.mp hu
        exact hdigit
      · simp [ofChars, digitsValue, hvalue]
    · have hmod : n % base < base := Nat.mod_lt _ (by omega)
      obtain ⟨hdigits, hrest⟩ := ih (n / base) (Nat.div_lt_self (by omega) hlow)
      obtain ⟨hdigit, hvalue⟩ := digit_read (n % base) (by omega)
      rw [if_neg hsmall]
      unfold ofChars at hrest hdigits ⊢
      unfold digitsValue at hrest ⊢
      rw [map_append, map_singleton]
      refine ⟨fun u hu => ?_, ?_⟩
      · rcases mem_append.mp hu with hu | hu
        · exact hdigits u hu
        · obtain rfl := mem_singleton.mp hu
          exact hdigit
      · rw [foldl_append, hrest]
        simp only [foldl_cons, foldl_nil, hvalue]
        exact Nat.div_add_mod n base

theorem hex_digits (n : Nat) : ∀ u ∈ hex n, isDigit u = true :=
  (digits_read 16 (by decide) (by decide) n).1

theorem hex_injective (h : hex m = hex n) : m = n := by
  have hread := (digits_read 16 (by decide) (by decide) m).2
  unfold hex at h
  rw [h, (digits_read 16 (by decide) (by decide) n).2] at hread
  exact hread.symm

theorem ofNat_digits (n : Nat) : ∀ u ∈ ofNat n, isDigit u = true :=
  (digits_read 10 (by decide) (by decide) n).1

theorem ofNat_injective (h : ofNat m = ofNat n) : m = n := by
  have hread := (digits_read 10 (by decide) (by decide) m).2
  unfold ofNat at h
  rw [h, (digits_read 10 (by decide) (by decide) n).2] at hread
  exact hread.symm

def isNumeral (u : UInt8) : Bool := isDigit u || u == 45

theorem ofInt_numeral (i : Int) : ∀ u ∈ ofInt i, isNumeral u = true := by
  have hdigits : ∀ u ∈ ofNat i.natAbs, isNumeral u = true := fun u hu => by
    rw [isNumeral, ofNat_digits _ u hu, Bool.true_or]
  unfold ofInt
  split
  · intro u hu
    rcases mem_append.mp hu with hu | hu
    · obtain rfl : u = 45 := mem_singleton.mp hu
      rfl
    · exact hdigits u hu
  · exact hdigits

theorem ofInt_injective (h : ofInt i = ofInt j) : i = j := by
  -- No number without a sign starts with one.
  have hsign : ∀ m n : Nat, (ofString "-" ++ ofNat m : Text) ≠ ofNat n := by
    intro m n heq
    have hdigit := ofNat_digits n 45 (heq ▸ mem_cons_self)
    cases hdigit
  unfold ofInt at h
  split at h <;> split at h
  · have := ofNat_injective (append_cancel_left h)
    omega
  · exact absurd h (hsign _ _)
  · exact absurd h.symm (hsign _ _)
  · have := ofNat_injective h
    omega

/-- An integer ends where no numeral follows. -/
theorem ofInt_unique (hx : Breaks isNumeral x) (hy : Breaks isNumeral y)
    (h : ofInt i ++ x = ofInt j ++ y) : i = j ∧ x = y := by
  obtain ⟨hint, hrest⟩ := part_unique (ofInt_numeral i) (ofInt_numeral j) hx hy h
  exact ⟨ofInt_injective hint, hrest⟩

def isDecimal (u : UInt8) : Bool := isDigit u || u ∈ [43, 45, 46, 73, 78, 110]

section Decimal

variable {cs ds : List Char}

/-- Characters of floating point numbers. -/
def Decimal (cs : List Char) : Prop := ∀ c ∈ cs, isDecimal c.toNat.toUInt8 = true

theorem Decimal.append (hcs : Decimal cs) (hds : Decimal ds) : Decimal (cs ++ ds) :=
  forall_mem_append.mpr ⟨hcs, hds⟩

theorem Decimal.cons {c : Char} (hc : isDecimal c.toNat.toUInt8 = true) (hcs : Decimal cs) :
    Decimal (c :: cs) :=
  forall_mem_cons.mpr ⟨hc, hcs⟩

theorem decimal_zeros (count : Nat) : Decimal (List.replicate count '0') := by
  intro c hc
  rw [eq_of_mem_replicate hc]
  rfl

theorem decimal_toDigits (n : Nat) : Decimal (Nat.toDigits 10 n) := by
  intro c hc
  rw [isDecimal, ofNat_digits n _ (mem_map_of_mem hc), Bool.true_or]

theorem decimal_positional (hcs : Decimal cs) (point : Int) :
    Decimal (Number.positional cs point) := by
  unfold Number.positional
  split
  · exact .cons rfl (.cons rfl ((decimal_zeros _).append hcs))
  · split
    · exact hcs.append (decimal_zeros _)
    · exact .append (fun c hc => hcs c (mem_of_mem_take hc))
        (.cons rfl fun c hc => hcs c (mem_of_mem_drop hc))

theorem decimal_scientific (hcs : Decimal cs) (exponent : Int) :
    Decimal (Number.scientific cs exponent) := by
  have hpower : Decimal ('e' :: (if exponent < 0 then '-' else '+') ::
      List.replicate (2 - (Nat.toDigits 10 exponent.natAbs).length) '0') := by
    apply Decimal.cons rfl
    split
    · exact .cons rfl (decimal_zeros _)
    · exact .cons rfl (decimal_zeros _)
  match cs with
  | [] | [_] => exact (hcs.append hpower).append (decimal_toDigits _)
  | d :: c :: cs =>
    obtain ⟨hd, hrest⟩ := forall_mem_cons.mp hcs
    have hmantissa : Decimal (d :: '.' :: c :: cs) := .cons hd (.cons rfl hrest)
    exact (hmantissa.append hpower).append (decimal_toDigits _)

theorem decimal_floatChars (f : Float) : Decimal (Number.floatChars f) := by
  have hsign : ∀ negative, Decimal (Number.signChars negative) := by
    intro negative
    cases negative with
    | false => exact nofun
    | true => exact .cons rfl nofun
  unfold Number.floatChars
  split
  · exact .cons rfl (.cons rfl (.cons rfl nofun))
  · split <;> exact .cons rfl (.cons rfl (.cons rfl (.cons rfl nofun)))
  · exact (hsign _).append (.cons rfl nofun)
  · apply (hsign _).append
    unfold Number.magnitudeChars
    dsimp only
    split
    · exact decimal_scientific (decimal_toDigits _) _
    · exact decimal_positional (decimal_toDigits _) _

set_option maxRecDepth 2000 in
theorem floatText_decimal (f : Float) : ∀ u ∈ Number.floatText f, isDecimal u = true := by
  have hchars : ∀ u ∈ ofChars (Number.floatChars f), isDecimal u = true :=
    forall_mem_map.mpr (decimal_floatChars f)
  have hpoint : ∀ u ∈ ofString ".0", isDecimal u = true := by decide
  unfold Number.floatText
  dsimp only
  split
  · exact hchars
  · exact forall_mem_append.mpr ⟨hchars, hpoint⟩

end Decimal

theorem digitsValue_zeros (base count : Nat) (t : Text) :
    digitsValue base (List.replicate count 48 ++ t) = digitsValue base t := by
  have hzeros : ∀ count, (List.replicate count (48 : UInt8)).foldl
      (fun n u => base * n + digitValue u) 0 = 0 := by
    intro count
    induction count with
    | zero => rfl
    | succ count ih =>
      rw [replicate_succ, foldl_cons]
      exact ih
  rw [digitsValue, foldl_append, hzeros]
  rfl

/-- Padded digits have a fixed length, so they show where they end. -/
theorem hexPadded_unique {width : Nat} (hwidth : 0 < width) (hm : m < 16 ^ width)
    (hn : n < 16 ^ width) (h : hexPadded width m ++ x = hexPadded width n ++ y) :
    m = n ∧ x = y := by
  have hlength : ∀ {n}, n < 16 ^ width → (hexPadded width n).length = width := by
    intro n hn
    have hle := (Nat.length_toDigits_le_iff (by decide) hwidth).mpr hn
    simp only [hexPadded, padLeft, hex, ofChars, length_append, length_replicate, length_map]
    omega
  have hvalue : ∀ n, digitsValue 16 (hexPadded width n) = n := by
    intro n
    rw [hexPadded, padLeft, digitsValue_zeros]
    exact (digits_read 16 (by decide) (by decide) n).2
  obtain ⟨heq, hrest⟩ := append_inj h ((hlength hm).trans (hlength hn).symm)
  refine ⟨?_, hrest⟩
  rw [← hvalue m, heq, hvalue n]

/-! ## Characters -/

/-- The encoding of a character shows where it ends. -/
theorem encodeChar_unique (h : encodeChar c ++ x = encodeChar d ++ y) : c = d ∧ x = y := by
  have hdecode : ∀ (c : Char) (t : Text),
      ByteArray.utf8DecodeChar? (encodeChar c ++ t).toByteArray 0 = some c := by
    intro c t
    rw [toByteArray_append]
    exact ByteArray.utf8DecodeChar?_utf8EncodeChar_append
  have hsame := hdecode c x
  rw [h, hdecode d y] at hsame
  obtain rfl : d = c := Option.some_inj.mp hsame
  exact ⟨rfl, append_cancel_left h⟩

theorem encodeChar_ne (hd : encodeChar d = [u]) (hne : c ≠ d) : encodeChar c ++ x ≠ u :: y := by
  intro h
  have hsame : encodeChar c ++ x = encodeChar d ++ y := by
    rw [hd]
    exact h
  exact hne (encodeChar_unique hsame).1

/-! ## Pieces -/

/-- The bytes of an encoded character, given the bytes behind the first, and their number. -/
inductive Encodes (c : Char) : UInt8 → Text → Nat → Prop
  | one {a : UInt8} {rest : Text} (ha : a.toNat < 128) (hc : c.toNat = a.toNat) : Encodes c a rest 0
  | two {a b : UInt8} {rest : Text} (ha : 194 ≤ a.toNat ∧ a.toNat ≤ 223)
      (hb : 128 ≤ b.toNat ∧ b.toNat ≤ 191) (hc : c.toNat = a.toNat % 32 * 64 + b.toNat % 64) :
      Encodes c a (b :: rest) 1
  | three {a b d : UInt8} {rest : Text} (ha : 224 ≤ a.toNat ∧ a.toNat ≤ 239)
      (hb : 128 ≤ b.toNat ∧ b.toNat ≤ 191) (hd : 128 ≤ d.toNat ∧ d.toNat ≤ 191)
      (hlong : 2048 ≤ a.toNat % 16 * 4096 + b.toNat % 64 * 64)
      (hc : c.toNat = a.toNat % 16 * 4096 + b.toNat % 64 * 64 + d.toNat % 64) :
      Encodes c a (b :: d :: rest) 2
  | four {a b d e : UInt8} {rest : Text} (ha : 240 ≤ a.toNat ∧ a.toNat ≤ 244)
      (hb : 128 ≤ b.toNat ∧ b.toNat ≤ 191) (hd : 128 ≤ d.toNat ∧ d.toNat ≤ 191)
      (he : 128 ≤ e.toNat ∧ e.toNat ≤ 191)
      (hlong : 65536 ≤ a.toNat % 8 * 262144 + b.toNat % 64 * 4096)
      (hc : c.toNat = a.toNat % 8 * 262144 + b.toNat % 64 * 4096 + d.toNat % 64 * 64 +
        e.toNat % 64) :
      Encodes c a (b :: d :: e :: rest) 3

theorem toNat_ofNat (h : n.isValidChar) : (Char.ofNat n).toNat = n := by
  rw [Char.ofNat, dif_pos h]
  rfl

theorem continues_iff {b : UInt8} : continues b = true ↔ 128 ≤ b.toNat ∧ b.toNat ≤ 191 := by
  simp [continues, UInt8.le_iff_toNat_le]

theorem followsThree_iff {a b : UInt8} : followsThree a b = true ↔
    (224 ≤ a.toNat ∧ a.toNat ≤ 239) ∧ (128 ≤ b.toNat ∧ b.toNat ≤ 191) ∧
      (a.toNat = 224 → 160 ≤ b.toNat) ∧ (a.toNat = 237 → b.toNat ≤ 159) := by
  simp only [followsThree, Bool.and_eq_true, Bool.or_eq_true, decide_eq_true_eq, bne_iff_ne,
    continues_iff, UInt8.le_iff_toNat_le, ne_eq, ← UInt8.toNat_inj, UInt8.reduceToNat]
  omega

theorem followsFour_iff {a b : UInt8} : followsFour a b = true ↔
    (240 ≤ a.toNat ∧ a.toNat ≤ 244) ∧ (128 ≤ b.toNat ∧ b.toNat ≤ 191) ∧
      (a.toNat = 240 → 144 ≤ b.toNat) ∧ (a.toNat = 244 → b.toNat ≤ 143) := by
  simp only [followsFour, Bool.and_eq_true, Bool.or_eq_true, decide_eq_true_eq, bne_iff_ne,
    continues_iff, UInt8.le_iff_toNat_le, ne_eq, ← UInt8.toNat_inj, UInt8.reduceToNat]
  omega

theorem encodes_of_leading {a : UInt8} (h : leading a rest = some (c, more)) :
    Encodes c a rest more := by
  unfold leading at h
  split at h
  next hone =>
    cases h
    have ha : a.toNat < 128 := UInt8.lt_iff_toNat_lt.mp hone
    exact .one ha (toNat_ofNat (.inl (by omega)))
  next =>
  split at h
  next => cases h
  next b rest =>
  split at h
  next htwo =>
    cases h
    simp only [Bool.and_eq_true, decide_eq_true_eq, UInt8.le_iff_toNat_le, continues_iff,
      UInt8.reduceToNat] at htwo
    exact .two htwo.1 htwo.2 (toNat_ofNat (.inl (by omega)))
  next =>
  split at h
  next => cases h
  next d rest =>
  split at h
  next hthree =>
    cases h
    simp only [Bool.and_eq_true, followsThree_iff, continues_iff] at hthree
    obtain ⟨⟨ha, hb, hlong, hsurrogate⟩, hd⟩ := hthree
    refine .three ha hb hd (by omega) (toNat_ofNat ?_)
    by_cases hlow : a.toNat < 238
    · exact .inl (by omega)
    · exact .inr (by omega)
  next =>
  split at h
  next => cases h
  next e rest =>
  split at h
  next hfour =>
    cases h
    simp only [Bool.and_eq_true, followsFour_iff, continues_iff] at hfour
    obtain ⟨⟨⟨ha, hb, hlong, hlast⟩, hd⟩, he⟩ := hfour
    exact .four ha hb hd he (by omega) (toNat_ofNat (.inr (by omega)))
  next => cases h

/-- A byte at which no character starts is none of the first half. -/
theorem stray_of_leading {a : UInt8} (h : leading a rest = none) : 128 ≤ a.toNat := by
  by_contra hlow
  have hone : a < 0x80 := UInt8.lt_iff_toNat_lt.mpr (by simpa using hlow)
  unfold leading at h
  rw [if_pos hone] at h
  cases h

/-- How many bytes follow the first shows in the number of the character. -/
theorem Encodes.range {a : UInt8} (h : Encodes c a rest more) :
    (more = 0 ∧ c.toNat < 128) ∨ (more = 1 ∧ 128 ≤ c.toNat ∧ c.toNat < 2048) ∨
      (more = 2 ∧ 2048 ≤ c.toNat ∧ c.toNat < 65536) ∨ (more = 3 ∧ 65536 ≤ c.toNat) := by
  cases h with
  | one ha hc => exact .inl ⟨rfl, by omega⟩
  | two ha hb hc => exact .inr (.inl ⟨rfl, by omega⟩)
  | three ha hb hd hlong hc => exact .inr (.inr (.inl ⟨rfl, by omega⟩))
  | four ha hb hd he hlong hc => exact .inr (.inr (.inr ⟨rfl, by omega⟩))

/-- The bytes of a character are determined by it. -/
theorem Encodes.unique {a a' : UInt8} {rest' : Text} {more' : Nat} (h : Encodes c a rest more)
    (h' : Encodes c a' rest' more') :
    more = more' ∧ a = a' ∧ rest.take more = rest'.take more' := by
  obtain rfl : more = more' := by
    have hrange := h.range
    have hrange' := h'.range
    omega
  have hbyte : ∀ {u v : UInt8}, u.toNat = v.toNat → u = v := UInt8.toNat_inj.mp
  refine ⟨rfl, ?_⟩
  cases h with
  | one ha hc =>
    cases h' with
    | one ha' hc' => exact ⟨hbyte (by omega), rfl⟩
  | @two b _ ha hb hc =>
    cases h' with
    | @two b' _ ha' hb' hc' =>
      have hsecond : b = b' := hbyte (by omega)
      exact ⟨hbyte (by omega), by simp [hsecond]⟩
  | @three b d _ ha hb hd hlong hc =>
    cases h' with
    | @three b' d' _ ha' hb' hd' hlong' hc' =>
      have hsecond : b = b' := hbyte (by omega)
      have hthird : d = d' := hbyte (by omega)
      exact ⟨hbyte (by omega), by simp [hsecond, hthird]⟩
  | @four b d e _ ha hb hd he hlong hc =>
    cases h' with
    | @four b' d' e' _ ha' hb' hd' he' hlong' hc' =>
      have hsecond : b = b' := hbyte (by omega)
      have hthird : d = d' := hbyte (by omega)
      have hfourth : e = e' := hbyte (by omega)
      exact ⟨hbyte (by omega), by simp [hsecond, hthird, hfourth]⟩

theorem piecesAfter_eq (skip : Nat) (t : Text) : piecesAfter skip t = pieces (t.drop skip) := by
  induction skip generalizing t with
  | zero => rfl
  | succ skip ih =>
    cases t with
    | nil =>
      unfold pieces piecesAfter
      rfl
    | cons a rest =>
      rw [piecesAfter, drop_succ_cons]
      exact ih rest

theorem pieces_cons (a : UInt8) (rest : Text) : pieces (a :: rest) = match leading a rest with
    | some (c, more) => .char c :: pieces (rest.drop more)
    | none => .stray a :: pieces rest := by
  rw [pieces, piecesAfter]
  cases leading a rest with
  | none => rfl
  | some found => exact congrArg (_ :: ·) (piecesAfter_eq found.2 rest)

/-- No two texts have the same pieces. -/
theorem pieces_injective (h : pieces s = pieces t) : s = t := by
  induction hlength : s.length using Nat.strongRecOn generalizing s t with
  | ind length ih =>
    cases s with
    | nil =>
      cases t with
      | nil => rfl
      | cons a rest =>
        rw [pieces_cons] at h
        split at h <;> cases h
    | cons a rest =>
      cases t with
      | nil =>
        rw [pieces_cons] at h
        split at h <;> cases h
      | cons b rest' =>
        rw [length_cons] at hlength
        rw [pieces_cons, pieces_cons] at h
        cases hfirst : leading a rest with
        | none =>
          cases hsecond : leading b rest' with
          | none =>
            rw [hfirst, hsecond] at h
            injection h with hhead htail
            injection hhead with hbyte
            rw [hbyte, ih rest.length (by omega) htail rfl]
          | some found =>
            rw [hfirst, hsecond] at h
            cases h
        | some found =>
          obtain ⟨c, more⟩ := found
          cases hsecond : leading b rest' with
          | none =>
            rw [hfirst, hsecond] at h
            cases h
          | some found =>
            obtain ⟨c', more'⟩ := found
            rw [hfirst, hsecond] at h
            injection h with hhead htail
            injection hhead with hchar
            subst hchar
            obtain ⟨rfl, rfl, htake⟩ :=
              (encodes_of_leading hfirst).unique (encodes_of_leading hsecond)
            have hdrop := ih (rest.drop more).length (by rw [length_drop]; omega) htail rfl
            rw [← take_append_drop more rest, htake, hdrop, take_append_drop]

/-! ## Quoted pieces -/

/-- A piece as it comes from a text: bytes of the first half are characters. -/
def Piece.Proper : Piece → Prop
  | .char _ => True
  | .stray b => 128 ≤ b.toNat

theorem proper_of_mem_pieces : ∀ p ∈ pieces t, p.Proper := by
  induction hlength : t.length using Nat.strongRecOn generalizing t with
  | ind length ih =>
    cases t with
    | nil => exact fun p hp => absurd hp not_mem_nil
    | cons a rest =>
      rw [length_cons] at hlength
      rw [pieces_cons]
      cases hfirst : leading a rest with
      | none =>
        intro p hp
        rcases mem_cons.mp hp with rfl | hp
        · exact stray_of_leading hfirst
        · exact ih rest.length (by omega) rfl p hp
      | some found =>
        intro p hp
        rcases mem_cons.mp hp with rfl | hp
        · trivial
        · exact ih (rest.drop found.2).length (by rw [length_drop]; omega) rfl p hp

/-- The bytes that stand behind a backslash for a character. -/
def marks : List UInt8 := [34, 92, 97, 98, 116, 110, 118, 102, 114]

/-- The character that a byte behind a backslash stands for. -/
def unmarked (u : UInt8) : Char :=
  if u = 34 then '"' else if u = 92 then '\\' else if u = 97 then Char.ofNat 7
  else if u = 98 then Char.ofNat 8 else if u = 116 then Char.ofNat 9
  else if u = 110 then Char.ofNat 10 else if u = 118 then Char.ofNat 11
  else if u = 102 then Char.ofNat 12 else Char.ofNat 13

/-- The bytes that stand behind a backslash before digits, with the number of digits. -/
def numberings : List (UInt8 × Nat) := [(120, 2), (117, 4), (85, 8)]

/-- The piece that digits stand for. Two digits stand for a stray byte or a character, which have
different numbers. -/
def numbered (width n : Nat) : Piece :=
  if width = 2 ∧ 128 ≤ n then .stray n.toUInt8 else .char (Char.ofNat n)

/-- The ways in which a piece is quoted. -/
inductive Quotes : Piece → Text → Prop
  | plain {c : Char} (hquote : c ≠ '"') (hslash : c ≠ '\\') : Quotes (.char c) (encodeChar c)
  | mark {u : UInt8} (hu : u ∈ marks) : Quotes (.char (unmarked u)) [92, u]
  | number {tag : UInt8} {width n : Nat} (htag : (tag, width) ∈ numberings) (hn : n < 16 ^ width) :
      Quotes (numbered width n) (92 :: tag :: hexPadded width n)

theorem toNat_lt (c : Char) : c.toNat < 1114112 := by
  rcases c.valid with h | ⟨-, h⟩
  · exact Nat.lt_trans h (by decide)
  · exact h

theorem quotes_escapeChar (c : Char) : Quotes (.char c) (escapeChar c) := by
  have hnumber : ∀ (tag : UInt8) (width : Nat), (tag, width) ∈ numberings → c.toNat < 16 ^ width →
      ¬(width = 2 ∧ 128 ≤ c.toNat) → Quotes (.char c) (92 :: tag :: hexPadded width c.toNat) := by
    intro tag width htag hn hchar
    have hquotes := Quotes.number htag hn
    rwa [numbered, if_neg hchar, Char.ofNat_toNat] at hquotes
  have hmark : ∀ {u : UInt8}, u ∈ marks → unmarked u = c → Quotes (.char c) [92, u] := by
    rintro u hu rfl
    exact .mark hu
  have hcontrol : ∀ {n : Nat}, c.toNat = n → Char.ofNat n = c := by
    rintro n rfl
    exact Char.ofNat_toNat c
  unfold escapeChar
  split
  next letter hletter =>
    unfold controlLetter? at hletter
    split at hletter <;> cases hletter
    all_goals next h => exact hmark (by decide) (hcontrol h)
  next =>
    split
    next hlow =>
      have hlt : c.toNat < 128 := by
        simp only [Bool.or_eq_true, decide_eq_true_eq, beq_iff_eq] at hlow
        omega
      exact hnumber 120 2 (by decide) (Nat.lt_trans hlt (by decide)) (by omega)
    next =>
    split
    next hshort => exact hnumber 117 4 (by decide) hshort (by omega)
    next => exact hnumber 85 8 (by decide) (Nat.lt_trans (toNat_lt c) (by decide)) (by omega)

theorem quotes_of_proper (hp : p.Proper) : Quotes p p.quote := by
  cases p with
  | stray b =>
    have htag : (120, 2) ∈ numberings := by decide
    have hquotes := Quotes.number htag b.toNat_lt
    rw [numbered, if_pos ⟨rfl, hp⟩, Nat.toUInt8_eq, UInt8.ofNat_toNat] at hquotes
    exact hquotes
  | char c =>
    change Quotes (.char c) (quoteChar c)
    unfold quoteChar
    split
    next hspecial =>
      simp only [Bool.or_eq_true, beq_iff_eq] at hspecial
      rcases hspecial with rfl | rfl
      · exact .mark (u := 34) (by decide)
      · exact .mark (u := 92) (by decide)
    next hspecial =>
    simp only [Bool.or_eq_true, beq_iff_eq, not_or] at hspecial
    split
    next => exact .plain hspecial.1 hspecial.2
    next => exact quotes_escapeChar c

/-- A quoted piece shows where it ends, and which piece it is. -/
theorem Quotes.unique {q : Piece} (hp : Quotes p s) (hq : Quotes q t) (h : s ++ x = t ++ y) :
    p = q ∧ x = y := by
  have hslash : encodeChar '\\' = [92] := by decide
  have hapart : ∀ {u tag : UInt8} {width : Nat}, u ∈ marks → (tag, width) ∈ numberings →
      u ≠ tag := by
    intro u tag width hu htag
    simp only [marks, numberings, mem_cons, Prod.mk.injEq, not_mem_nil, or_false] at hu htag
    rcases htag with ⟨rfl, -⟩ | ⟨rfl, -⟩ | ⟨rfl, -⟩ <;>
      rcases hu with rfl | rfl | rfl | rfl | rfl | rfl | rfl | rfl | rfl <;> decide
  cases hp with
  | plain hquote hother =>
    cases hq with
    | plain hquote' hother' =>
      obtain ⟨rfl, hrest⟩ := encodeChar_unique h
      exact ⟨rfl, hrest⟩
    | mark hu => exact absurd h (encodeChar_ne hslash hother)
    | number htag hn => exact absurd h (encodeChar_ne hslash hother)
  | mark hu =>
    cases hq with
    | plain hquote' hother' => exact absurd h.symm (encodeChar_ne hslash hother')
    | mark hu' =>
      injection h with _ hrest
      injection hrest with hmark hrest
      exact ⟨by rw [hmark], hrest⟩
    | number htag hn =>
      injection h with _ hrest
      injection hrest with hmark _
      exact absurd hmark (hapart hu htag)
  | @number tag width n htag hn =>
    cases hq with
    | plain hquote' hother' => exact absurd h.symm (encodeChar_ne hslash hother')
    | mark hu =>
      injection h with _ hrest
      injection hrest with hmark _
      exact absurd hmark.symm (hapart hu htag)
    | @number tag' width' n' htag' hn' =>
      injection h with _ hrest
      injection hrest with htags hdigits
      subst htags
      have hwidths : width = width' ∧ 0 < width := by
        simp only [numberings, mem_cons, Prod.mk.injEq, not_mem_nil, or_false] at htag htag'
        rcases htag with ⟨rfl, rfl⟩ | ⟨rfl, rfl⟩ | ⟨rfl, rfl⟩ <;> simp_all
      obtain ⟨rfl, hwidth⟩ := hwidths
      obtain ⟨rfl, hrest⟩ := hexPadded_unique hwidth hn hn' hdigits
      exact ⟨rfl, hrest⟩

/-- No quoted piece is taken for the quote at the end. -/
theorem Quotes.ne_quote (hp : Quotes p s) : s ++ x ≠ 34 :: y := by
  cases hp with
  | plain hquote hother => exact encodeChar_ne (d := '"') (by decide) hquote
  | mark hu => exact fun h => absurd (List.cons.inj h).1 (by decide)
  | number htag hn => exact fun h => absurd (List.cons.inj h).1 (by decide)

theorem quoted_pieces_unique {ps qs : List Piece} (hps : ∀ p ∈ ps, p.Proper)
    (hqs : ∀ q ∈ qs, q.Proper)
    (h : ps.flatMap Piece.quote ++ 34 :: x = qs.flatMap Piece.quote ++ 34 :: y) :
    ps = qs ∧ x = y := by
  induction ps generalizing qs with
  | nil =>
    cases qs with
    | nil => exact ⟨rfl, (List.cons.inj h).2⟩
    | cons q qs =>
      rw [flatMap_cons, append_assoc] at h
      exact absurd h.symm (quotes_of_proper (hqs q mem_cons_self)).ne_quote
  | cons p ps ih =>
    cases qs with
    | nil =>
      rw [flatMap_cons, append_assoc] at h
      exact absurd h (quotes_of_proper (hps p mem_cons_self)).ne_quote
    | cons q qs =>
      rw [flatMap_cons, flatMap_cons, append_assoc, append_assoc] at h
      obtain ⟨rfl, hrest⟩ := (quotes_of_proper (hps p mem_cons_self)).unique
        (quotes_of_proper (hqs q mem_cons_self)) h
      obtain ⟨rfl, hxy⟩ := ih (fun r hr => hps r (mem_cons_of_mem p hr))
        (fun r hr => hqs r (mem_cons_of_mem p hr)) hrest
      exact ⟨rfl, hxy⟩

/-- A quoted text shows where it ends, and what it quotes. -/
theorem quote_unique (h : quote s ++ x = quote t ++ y) : s = t ∧ x = y := by
  unfold quote at h
  rw [cons_append, cons_append, append_assoc, append_assoc] at h
  obtain ⟨hpieces, hrest⟩ := quoted_pieces_unique proper_of_mem_pieces proper_of_mem_pieces
    (List.cons.inj h).2
  exact ⟨pieces_injective hpieces, hrest⟩

end ExprBackend.Text
