import ExprBackend.Operator.Integer
import Mathlib.Algebra.Order.Ring.Int
import Mathlib.Data.Int.Bitwise
import Mathlib.Data.Nat.Bitwise

/-! # Exact arithmetic behind the integer operators

An operator on words gives the word of the exact result, whatever the loop, the
shift or the truncated division that computes it does on the way. Remainders and
shifts to the right always fit, so that they are exact. Where an operator has no
result, it fails, and nowhere else.
-/

namespace ExprBackend.Integer

variable {a b : Int64}

/-! ## Quotients and remainders -/

/-- Truncation differs from rounding down where the signs differ and a remainder is left. -/
theorem fdiv_eq_ite {m n : Int} (hn : n ≠ 0) :
    m.fdiv n = if m.tmod n ≠ 0 ∧ ¬(m < 0 ↔ n < 0) then m.tdiv n - 1 else m.tdiv n := by
  rw [Int.fdiv_eq_tdiv]
  simp only [Int.dvd_iff_tmod_eq_zero]
  rcases Int.lt_or_gt_of_ne hn with hneg | hpos
  · rw [Int.sign_eq_neg_one_of_neg hneg]
    split_ifs <;> omega
  · rw [Int.sign_eq_one_of_pos hpos]
    split_ifs <;> omega

theorem fmod_eq_ite (m n : Int) :
    m.fmod n = if m.tmod n ≠ 0 ∧ ¬(m.tmod n < 0 ↔ n < 0) then m.tmod n + n else m.tmod n := by
  -- the truncated remainder has the sign of the dividend
  have hpos : 0 ≤ m → 0 ≤ m.tmod n := Int.tmod_nonneg n
  have hneg : 0 ≤ -m → 0 ≤ -m.tmod n := by
    rw [← Int.neg_tmod]
    exact Int.tmod_nonneg n
  rw [Int.fmod_eq_tmod]
  simp only [Int.dvd_iff_tmod_eq_zero]
  split_ifs <;> omega

theorem toInt_ne_zero (hb : b ≠ 0) : b.toInt ≠ 0 := by
  intro h
  exact hb (Int64.toInt_inj.mp h)

theorem floorDiv_eq (hb : b ≠ 0) : floorDiv a b = .ofInt (a.toInt.fdiv b.toInt) := by
  have hquotient : a / b = .ofInt (a.toInt.tdiv b.toInt) := by
    apply Int64.toInt_inj.mp
    rw [Int64.toInt_div, Int64.toInt_ofInt, Int64.size]
  have hrounds : (a % b != 0 && (a < 0) != (b < 0)) = true ↔
      a.toInt.tmod b.toInt ≠ 0 ∧ ¬(a.toInt < 0 ↔ b.toInt < 0) := by
    simp only [Bool.and_eq_true, bne_iff_ne, ne_eq, ← Int64.toInt_inj, Int64.toInt_mod,
      Int64.toInt_zero, decide_eq_decide, Int64.lt_iff_toInt_lt]
  rw [floorDiv, fdiv_eq_ite (toInt_ne_zero hb), hquotient]
  simp only [hrounds]
  split
  next =>
    rw [Int64.ofInt_sub]
    rfl
  next => rfl

theorem toInt_floorMod (a b : Int64) : (floorMod a b).toInt = a.toInt.fmod b.toInt := by
  have hrounds : (a % b != 0 && (a % b < 0) != (b < 0)) = true ↔
      a.toInt.tmod b.toInt ≠ 0 ∧ ¬(a.toInt.tmod b.toInt < 0 ↔ b.toInt < 0) := by
    simp only [Bool.and_eq_true, bne_iff_ne, ne_eq, ← Int64.toInt_inj, Int64.toInt_mod,
      Int64.toInt_zero, decide_eq_decide, Int64.lt_iff_toInt_lt]
  rw [floorMod, fmod_eq_ite]
  simp only [hrounds]
  split
  next hsigns =>
    -- numbers of different signs have a sum that fits
    have hm := Int64.toInt_mod a b
    have hm_low := (a % b).le_toInt
    have hm_high := (a % b).toInt_lt
    have hb_low := b.le_toInt
    have hb_high := b.toInt_lt
    rw [Int64.toInt_add, hm]
    apply Int.bmod_eq_of_le <;> omega
  next => exact Int64.toInt_mod a b

theorem fmod_sign {m n : Int} (hn : n ≠ 0) : m.fmod n = 0 ∨ (m.fmod n < 0 ↔ n < 0) := by
  rcases Int.lt_or_gt_of_ne hn with hneg | hpos
  · have h := Int.fmod_nonneg_of_pos (-m) (by omega : 0 < -n)
    rw [Int.neg_fmod_neg] at h
    omega
  · have h := Int.fmod_nonneg_of_pos m hpos
    omega

theorem natAbs_fmod_lt (m : Int) {n : Int} (hn : n ≠ 0) : (m.fmod n).natAbs < n.natAbs := by
  rcases Int.lt_or_gt_of_ne hn with hneg | hpos
  · have hlow := Int.fmod_nonneg_of_pos (-m) (by omega : 0 < -n)
    have hhigh := Int.fmod_lt_of_pos (-m) (by omega : 0 < -n)
    rw [Int.neg_fmod_neg] at hlow hhigh
    omega
  · have hlow := Int.fmod_nonneg_of_pos m hpos
    have hhigh := Int.fmod_lt_of_pos m hpos
    omega

/-! ## Powers -/

/-- The loop multiplies by the power of the base that is left. The base may have wrapped around
already, since only its residue counts. -/
theorem powLoop_ofInt (bits : Nat) (base : Int) (exponent : Nat) (product : Int)
    (hbits : exponent < 2 ^ bits) :
    powLoop bits (.ofInt base) exponent (.ofInt product) = .ofInt (product * base ^ exponent) := by
  induction bits generalizing base exponent product with
  | zero =>
    obtain rfl : exponent = 0 := by omega
    rw [powLoop, pow_zero, mul_one]
  | succ bits ih =>
    rw [powLoop]
    split
    next hzero =>
      rw [beq_iff_eq] at hzero
      rw [hzero, pow_zero, mul_one]
    next =>
      have hhalf : base ^ exponent = base ^ (exponent % 2) * (base * base) ^ (exponent / 2) := by
        rw [← pow_two, ← pow_mul, ← pow_add, Nat.mod_add_div]
      rw [← Int64.ofInt_mul, ← Int64.ofInt_mul]
      split
      next hodd =>
        rw [beq_iff_eq] at hodd
        rw [ih _ _ _ (by omega), hhalf, hodd, pow_one, mul_assoc]
      next heven =>
        rw [beq_iff_eq] at heven
        obtain heven : exponent % 2 = 0 := by omega
        rw [ih _ _ _ (by omega), hhalf, heven, pow_zero, one_mul]

theorem pow_eq (a b : Int64) : pow a b = .ofInt (a.toInt ^ b.toInt.toNat) := by
  have hbits : b.toInt.toNat < 2 ^ 64 := by
    have hhigh := b.toInt_lt
    omega
  have hloop := powLoop_ofInt 64 a.toInt b.toInt.toNat 1 hbits
  rw [Int64.ofInt_toInt, one_mul] at hloop
  exact hloop

/-! ## Shifts -/

/-- A count below the width is taken as it is. -/
theorem toNat_smod_width (hlow : 0 ≤ b.toInt) (hhigh : b.toInt < 64) :
    (b.toBitVec.smod 64).toNat = b.toInt.toNat := by
  have hmsb : b.toBitVec.msb = false := by
    rw [BitVec.msb_eq_toInt]
    simpa using hlow
  have hb : b.toInt = b.toBitVec.toNat := BitVec.toInt_eq_toNat_of_msb hmsb
  have hwidth : (64 : BitVec 64).toNat = 64 := rfl
  rw [BitVec.smod_eq, hmsb, show (64 : BitVec 64).msb = false from rfl]
  simp only [BitVec.umod_eq, BitVec.toNat_umod, hwidth]
  omega

theorem shiftLeft_eq (hb : 0 ≤ b) : shiftLeft a b = .ofInt (a.toInt * 2 ^ b.toInt.toNat) := by
  have hcount : 0 ≤ b.toInt := Int64.le_iff_toInt_le.mp hb
  have hwide : b ≥ 64 ↔ 64 ≤ b.toInt := Int64.le_iff_toInt_le
  rw [shiftLeft]
  simp only [hwide]
  apply Int64.toInt_inj.mp
  rw [Int64.toInt_ofInt, Int64.size]
  split
  next hfar =>
    obtain ⟨more, hmore⟩ : ∃ more, b.toInt.toNat = more + 64 := ⟨b.toInt.toNat - 64, by omega⟩
    rw [hmore, pow_add, ← mul_assoc]
    exact (Int.bmod_eq_zero_of_dvd (Dvd.intro_left _ rfl)).symm
  next hnear =>
    rw [← Int64.toInt_toBitVec, Int64.toBitVec_shiftLeft, BitVec.shiftLeft_eq',
      toNat_smod_width hcount (by omega), BitVec.toInt_shiftLeft, ← Int64.toInt_toBitVec a,
      BitVec.toInt_eq_toNat_bmod, Int.bmod_mul_bmod, Nat.shiftLeft_eq]
    push_cast
    rfl

theorem toInt_shiftRight (hb : 0 ≤ b) :
    (shiftRight a b).toInt = a.toInt.fdiv (2 ^ b.toInt.toNat) := by
  have hcount : 0 ≤ b.toInt := Int64.le_iff_toInt_le.mp hb
  have hwide : b ≥ 64 ↔ 64 ≤ b.toInt := Int64.le_iff_toInt_le
  have hsign : a < 0 ↔ a.toInt < 0 := Int64.lt_iff_toInt_lt
  have hpositive : (0 : Int) < 2 ^ b.toInt.toNat := pow_pos (by decide) _
  rw [shiftRight, Int.fdiv_eq_ediv_of_nonneg _ hpositive.le]
  simp only [hwide, hsign]
  split
  next hfar =>
    -- every word is smaller than the power that it is divided by
    have hpower : (2 : Int) ^ 64 ≤ 2 ^ b.toInt.toNat := pow_le_pow_right₀ (by decide) (by omega)
    have hlow := a.le_toInt
    have hhigh := a.toInt_lt
    split
    next hneg =>
      exact ((Int.ediv_emod_unique hpositive).mpr
        ⟨(by omega : a.toInt + 2 ^ b.toInt.toNat + 2 ^ b.toInt.toNat * -1 =
          a.toInt), by omega, by omega⟩).1.symm
    next hpos =>
      rw [Int.ediv_eq_zero_of_lt (by omega) (by omega)]
      rfl
  next hnear =>
    rw [← Int64.toInt_toBitVec, Int64.toBitVec_shiftRight, BitVec.sshiftRight',
      toNat_smod_width hcount (by omega), BitVec.toInt_sshiftRight, Int.shiftRight_eq_div_pow,
      Int64.toInt_toBitVec]
    push_cast
    rfl

/-! ## Bits -/

/-- The bits of a number in two's complement are those of its word, and the sign behind them. -/
theorem testBit_toInt {w : Nat} (x : BitVec w) (i : Nat) :
    x.toInt.testBit i = if i < w then x.getLsbD i else x.msb := by
  rw [BitVec.toInt_eq_msb_cond]
  cases hmsb : x.msb with
  | false =>
    have hbit : (x.toNat : Int).testBit i = x.getLsbD i := BitVec.testBit_toNat x
    rw [if_neg (by decide), hbit]
    split
    next => rfl
    next hi => exact BitVec.getLsbD_of_ge x i (by omega)
  | true =>
    -- a negative number has the bits of its complement, inverted
    obtain ⟨rest, hrest⟩ : ∃ rest, x.toNat + (rest + 1) = 2 ^ w :=
      ⟨2 ^ w - x.toNat - 1, by have := x.isLt; omega⟩
    have hneg : (x.toNat : Int) - (2 ^ w : Nat) = Int.negSucc rest := by omega
    have hx : x.toNat = 2 ^ w - (rest + 1) := by omega
    rw [if_pos rfl, hneg, Int.testBit, ← BitVec.testBit_toNat, hx,
      Nat.testBit_two_pow_sub_succ (by omega)]
    split
    next hi => rw [decide_eq_true hi, Bool.true_and]
    next hi =>
      have hsmall : rest < 2 ^ i :=
        lt_of_lt_of_le (by omega : rest < 2 ^ w) (Nat.pow_le_pow_right (by decide) (by omega))
      rw [Nat.testBit_lt_two_pow hsmall]
      rfl

/-! ## Operators -/

/-- The operands for which an operator has no result, and the category of the failure. -/
inductive Undefined : BinaryOp → Int64 → Int64 → Category → Prop
  | quotient (a : Int64) : Undefined .div a 0 .zeroDivision
  | floorQuotient (a : Int64) : Undefined .floorDiv a 0 .zeroDivision
  | remainder (a : Int64) : Undefined .mod a 0 .zeroDivision
  | power {b : Int64} (hb : b < 0) : Undefined .pow 0 b .zeroDivision
  | shiftLeft (a : Int64) {b : Int64} (hb : b < 0) : Undefined .shiftLeft a b .value
  | shiftRight (a : Int64) {b : Int64} (hb : b < 0) : Undefined .shiftRight a b .value

theorem undefined_of_binary_error {op : BinaryOp} {e : RuntimeError}
    (h : binary op a b = .error e) : Undefined op a b e.category := by
  unfold binary at h
  cases op with
  | add | sub | mul | and | or | xor => cases h
  | div | floorDiv | mod =>
    dsimp only at h
    split at h
    next hzero =>
      obtain rfl : b = 0 := eq_of_beq hzero
      cases h
      constructor
    next => cases h
  | pow =>
    dsimp only at h
    split at h
    next hneg =>
      split at h
      next hzero =>
        obtain rfl : a = 0 := eq_of_beq hzero
        cases h
        exact .power hneg
      next => cases h
    next => cases h
  | shiftLeft | shiftRight =>
    dsimp only at h
    split at h
    next hneg =>
      cases h
      constructor
      exact hneg
    next => cases h

theorem binary_error_of_undefined {op : BinaryOp} {category : Category}
    (h : Undefined op a b category) : ∃ e, binary op a b = .error e ∧ e.category = category := by
  cases h with
  | quotient | floorQuotient | remainder => exact ⟨_, rfl, rfl⟩
  | power hb => exact ⟨_, if_pos hb, rfl⟩
  | shiftLeft _ hb | shiftRight _ hb => exact ⟨_, if_pos hb, rfl⟩

/-- The operators give the word of the exact result. The remainder is exact and has the sign of the
divisor, the lowest word divided by `-1` included; counts and exponents may be of any size. An
operator fails exactly where it has no result; besides those that give integers that is the quotient
by zero. -/
theorem binary_exact (a b : Int64) :
    binary .add a b = .ok (.int (.ofInt (a.toInt + b.toInt))) ∧
    binary .sub a b = .ok (.int (.ofInt (a.toInt - b.toInt))) ∧
    binary .mul a b = .ok (.int (.ofInt (a.toInt * b.toInt))) ∧
    (b ≠ 0 →
      binary .floorDiv a b = .ok (.int (.ofInt (a.toInt.fdiv b.toInt))) ∧
      ∃ r : Int64, binary .mod a b = .ok (.int r) ∧
        r.toInt = a.toInt - b.toInt * a.toInt.fdiv b.toInt ∧
        (r = 0 ∨ (r < 0 ↔ b < 0)) ∧ r.toInt.natAbs < b.toInt.natAbs) ∧
    (0 ≤ b →
      binary .pow a b = .ok (.int (.ofInt (a.toInt ^ b.toInt.toNat))) ∧
      binary .shiftLeft a b = .ok (.int (.ofInt (a.toInt * 2 ^ b.toInt.toNat))) ∧
      ∃ r : Int64, binary .shiftRight a b = .ok (.int r) ∧
        r.toInt = a.toInt.fdiv (2 ^ b.toInt.toNat)) ∧
    (∃ both either differing : Int64,
      binary .and a b = .ok (.int both) ∧ binary .or a b = .ok (.int either) ∧
      binary .xor a b = .ok (.int differing) ∧ ∀ i,
        both.toInt.testBit i = (a.toInt.testBit i && b.toInt.testBit i) ∧
        either.toInt.testBit i = (a.toInt.testBit i || b.toInt.testBit i) ∧
        differing.toInt.testBit i = (a.toInt.testBit i ^^ b.toInt.testBit i)) ∧
    ∀ op category,
      (∃ e, binary op a b = .error e ∧ e.category = category) ↔ Undefined op a b category := by
  refine ⟨?_, ?_, ?_, ?_, ?_, ?_, ?_⟩
  · rw [Int64.ofInt_add, Int64.ofInt_toInt, Int64.ofInt_toInt]
    rfl
  · rw [Int64.ofInt_sub, Int64.ofInt_toInt, Int64.ofInt_toInt]
    rfl
  · rw [Int64.ofInt_mul, Int64.ofInt_toInt, Int64.ofInt_toInt]
    rfl
  · intro hb
    have hzero : ¬(b == 0) = true := fun h => hb (eq_of_beq h)
    have hsign := fmod_sign (m := a.toInt) (toInt_ne_zero hb)
    have hsmall := natAbs_fmod_lt a.toInt (toInt_ne_zero hb)
    rw [← toInt_floorMod] at hsign hsmall
    refine ⟨?_, floorMod a b, if_neg hzero, ?_, ?_, hsmall⟩
    · rw [← floorDiv_eq hb]
      exact if_neg hzero
    · rw [toInt_floorMod, Int.fmod_def]
    · rw [Int64.lt_iff_toInt_lt, Int64.lt_iff_toInt_lt, ← Int64.toInt_inj]
      exact hsign
  · intro hb
    have hnonneg : ¬b < 0 := Int64.not_lt.mpr hb
    refine ⟨?_, ?_, shiftRight a b, if_neg hnonneg, toInt_shiftRight hb⟩
    · rw [← pow_eq]
      exact if_neg hnonneg
    · rw [← shiftLeft_eq hb]
      exact if_neg hnonneg
  · refine ⟨a &&& b, a ||| b, a ^^^ b, rfl, rfl, rfl, fun i => ?_⟩
    simp only [← Int64.toInt_toBitVec, testBit_toInt, Int64.toBitVec_and, Int64.toBitVec_or,
      Int64.toBitVec_xor, BitVec.getLsbD_and, BitVec.getLsbD_or, BitVec.getLsbD_xor, BitVec.msb_and,
      BitVec.msb_or, BitVec.msb_xor]
    split <;> exact ⟨rfl, rfl, rfl⟩
  · intro op category
    constructor
    · rintro ⟨e, herror, rfl⟩
      exact undefined_of_binary_error herror
    · exact binary_error_of_undefined

/-- The lowest word divided by `-1` wraps around and leaves no remainder. -/
theorem binary_exact_lowest :
    (-1 : Int64) ≠ 0 ∧ (0 : Int64) ≤ 2 ∧
      binary .floorDiv Int64.minValue (-1) =
        .ok (.int (.ofInt (Int64.minValue.toInt.fdiv (-1 : Int64).toInt))) ∧
      binary .pow Int64.minValue 2 = .ok
        (.int (.ofInt (Int64.minValue.toInt ^ (2 : Int64).toInt.toNat))) :=
  ⟨by decide, by decide, ((binary_exact Int64.minValue (-1)).2.2.2.1 (by decide)).1,
    ((binary_exact Int64.minValue 2).2.2.2.2.1 (by decide)).1⟩

end ExprBackend.Integer
