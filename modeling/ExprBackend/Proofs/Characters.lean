import ExprBackend.Proofs.Quotation

/-! # Texts of characters

The encoding of characters splits into just these characters, so that the
well-formed texts are the encodings, and reading the characters of a well-formed
text and encoding them again gives it back.
-/

namespace ExprBackend.Text

open List

/-- The bytes that encode a character are read as this character. -/
theorem Encodes.leading {c : Char} {a : UInt8} {rest : Text} {more : Nat}
    (h : Encodes c a rest more) : Text.leading a rest = some (c, more) := by
  have hvalid : c.toNat < 0xD800 ∨ 0xDFFF < c.toNat ∧ c.toNat < 0x110000 := c.valid
  have hone : a < 0x80 ↔ a.toNat < 128 := UInt8.lt_iff_toNat_lt
  have htwo : ∀ b : UInt8, (0xC2 ≤ a && a ≤ 0xDF && continues b) = true ↔
      (194 ≤ a.toNat ∧ a.toNat ≤ 223) ∧ 128 ≤ b.toNat ∧ b.toNat ≤ 191 := by
    intro b
    simp only [Bool.and_eq_true, decide_eq_true_eq, UInt8.le_iff_toNat_le, continues_iff,
      UInt8.reduceToNat]
  unfold Text.leading
  cases h with
  | one ha hc => rw [if_pos (hone.mpr ha), ← hc, Char.ofNat_toNat]
  | two ha hb hc =>
    rw [if_neg (mt hone.mp (by omega))]
    dsimp only
    rw [if_pos ((htwo _).mpr ⟨ha, hb⟩), ← hc, Char.ofNat_toNat]
  | @three b d rest ha hb hd hlong hc =>
    have hthree : (followsThree a b && continues d) = true := by
      simp only [Bool.and_eq_true, followsThree_iff, continues_iff]
      omega
    rw [if_neg (mt hone.mp (by omega))]
    dsimp only
    rw [if_neg (mt (htwo b).mp (by omega)), if_pos hthree, ← hc, Char.ofNat_toNat]
  | @four b d e rest ha hb hd he hlong hc =>
    have hthree : ¬(followsThree a b && continues d) = true := by
      simp only [Bool.and_eq_true, followsThree_iff, continues_iff]
      omega
    have hfour : (followsFour a b && continues d && continues e) = true := by
      simp only [Bool.and_eq_true, followsFour_iff, continues_iff]
      omega
    rw [if_neg (mt hone.mp (by omega))]
    dsimp only
    rw [if_neg (mt (htwo b).mp (by omega)), if_neg hthree, if_pos hfour, ← hc, Char.ofNat_toNat]

theorem encodes_encodeChar (c : Char) :
    ∃ a rest, encodeChar c = a :: rest ∧ ∀ t, Encodes c a (rest ++ t) rest.length := by
  have hvalid : c.toNat < 0xD800 ∨ 0xDFFF < c.toNat ∧ c.toNat < 0x110000 := c.valid
  have hbyte : ∀ {n : Nat}, n < 256 → (UInt8.ofNat n).toNat = n := UInt8.toNat_ofNat_of_lt'
  have hnum : c.val.toNat = c.toNat := rfl
  unfold encodeChar String.utf8EncodeChar
  rw [hnum]
  dsimp only
  split_ifs with hone htwo hthree
  · have ha := hbyte (n := c.toNat) (by omega)
    exact ⟨_, _, rfl, fun t => .one (by omega) ha.symm⟩
  · have ha := hbyte (n := c.toNat / 64 % 32 + 192) (by omega)
    have hb := hbyte (n := c.toNat % 64 + 128) (by omega)
    exact ⟨_, _, rfl, fun t => .two (by omega) (by omega) (by omega)⟩
  · have ha := hbyte (n := c.toNat / 4096 % 16 + 224) (by omega)
    have hb := hbyte (n := c.toNat / 64 % 64 + 128) (by omega)
    have hd := hbyte (n := c.toNat % 64 + 128) (by omega)
    exact ⟨_, _, rfl, fun t => .three (by omega) (by omega) (by omega) (by omega) (by omega)⟩
  · have ha := hbyte (n := c.toNat / 262144 % 8 + 240) (by omega)
    have hb := hbyte (n := c.toNat / 4096 % 64 + 128) (by omega)
    have hd := hbyte (n := c.toNat / 64 % 64 + 128) (by omega)
    have he := hbyte (n := c.toNat % 64 + 128) (by omega)
    exact ⟨_, _, rfl, fun t => .four (by omega) (by omega) (by omega) (by omega)
      (by omega) (by omega)⟩

theorem pieces_encodeChar (c : Char) (t : Text) :
    pieces (encodeChar c ++ t) = .char c :: pieces t := by
  obtain ⟨a, rest, hbytes, hencodes⟩ := encodes_encodeChar c
  rw [hbytes, cons_append, pieces_cons, (hencodes t).leading]
  dsimp only
  rw [drop_left]

theorem pieces_encode (cs : List Char) : pieces (encode cs) = cs.map .char := by
  induction cs with
  | nil => rfl
  | cons c cs ih =>
    rw [encode, flatMap_cons, pieces_encodeChar, map_cons]
    exact congrArg (_ :: ·) ih

@[simp]
theorem chars_encode (cs : List Char) : chars (encode cs) = cs := by
  rw [chars, pieces_encode, map_map]
  exact map_id cs

@[simp]
theorem isUtf8_encode (cs : List Char) : isUtf8 (encode cs) = true := by
  rw [isUtf8, pieces_encode, all_map]
  exact all_eq_true.mpr fun c _ => rfl

/-- Encoding the characters of a well-formed text gives it back. -/
theorem encode_chars {t : Text} (h : isUtf8 t = true) : encode (chars t) = t := by
  apply pieces_injective
  rw [pieces_encode, chars, map_map]
  have hpiece : ∀ p ∈ pieces t, Piece.char p.toChar = id p := by
    intro p hp
    have hchar := all_eq_true.mp h p hp
    cases p with
    | char c => rfl
    | stray b => cases hchar
  exact (map_congr_left hpiece).trans (map_id _)

/-- A text has at most as many characters as bytes. -/
theorem length_chars_le (t : Text) : (chars t).length ≤ t.length := by
  have hpieces : ∀ skip, (piecesAfter skip t).length ≤ t.length := by
    induction t with
    | nil =>
      intro skip
      cases skip <;> exact Nat.zero_le _
    | cons a rest ih =>
      intro skip
      cases skip with
      | zero =>
        rw [piecesAfter]
        split <;> exact Nat.succ_le_succ (ih _)
      | succ skip => exact Nat.le_succ_of_le (ih skip)
  rw [chars, length_map]
  exact hpieces 0

end ExprBackend.Text
