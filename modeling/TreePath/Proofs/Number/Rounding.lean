import Mathlib.Order.Monotone.Basic
import Mathlib.Tactic.Ring
import TreePath.Number.Binary64

/-!
Rounding of whole numbers. The magnitude of a double grows with its low bits, so a bound on the
bits is a bound on the value; the bits nearest to a whole number are one rounded quotient.
-/

namespace TreePath

namespace Binary64

/-- The units of 2^-1074 that the bits below the sign stand for. -/
def magnitude (low : Nat) : Nat :=
  if low / 2 ^ 52 = 0 then low else (2 ^ 52 + low % 2 ^ 52) * 2 ^ (low / 2 ^ 52 - 1)

/-- The next bits stand for a greater magnitude, also where the significand starts again. -/
theorem magnitude_lt_succ (low : Nat) : magnitude low < magnitude (low + 1) := by
  unfold magnitude
  by_cases hf : low % 2 ^ 52 + 1 = 2 ^ 52
  · have hd : (low + 1) / 2 ^ 52 = low / 2 ^ 52 + 1 := by omega
    have hm : (low + 1) % 2 ^ 52 = 0 := by omega
    rw [hd, hm, if_neg (Nat.succ_ne_zero _), Nat.add_sub_cancel]
    split
    · next he => rw [he]; omega
    · next he =>
      obtain ⟨e, he⟩ := Nat.exists_eq_succ_of_ne_zero he
      have hpos : 0 < 2 ^ e := Nat.two_pow_pos e
      rw [he, Nat.succ_sub_one, Nat.succ_eq_add_one, Nat.pow_succ 2 e]
      have hsig : 2 ^ 52 + low % 2 ^ 52 < 2 ^ 52 * 2 := by omega
      calc (2 ^ 52 + low % 2 ^ 52) * 2 ^ e < 2 ^ 52 * 2 * 2 ^ e :=
            Nat.mul_lt_mul_of_pos_right hsig hpos
        _ = (2 ^ 52 + 0) * (2 ^ e * 2) := by ring
  · have hd : (low + 1) / 2 ^ 52 = low / 2 ^ 52 := by omega
    have hm : (low + 1) % 2 ^ 52 = low % 2 ^ 52 + 1 := by omega
    rw [hd, hm]
    split
    · omega
    · exact Nat.mul_lt_mul_of_pos_right (by omega) (Nat.two_pow_pos _)

theorem magnitude_strictMono : StrictMono magnitude := strictMono_nat_of_lt_succ magnitude_lt_succ

section Fields

variable {negative : Bool} {low : Nat}

theorem toNat_bits_ofMagnitudeBits (h : low < 2 ^ 63) :
    (ofMagnitudeBits negative low).bits.toNat = (if negative then 2 ^ 63 else 0) + low := by
  unfold ofMagnitudeBits
  rw [UInt64.toNat_ofNat_of_lt']
  · split <;> omega
  · rw [UInt64.size]
    split <;> omega

theorem negative_ofMagnitudeBits (h : low < 2 ^ 63) :
    (ofMagnitudeBits negative low).negative = negative := by
  unfold Binary64.negative
  rw [toNat_bits_ofMagnitudeBits h]
  cases negative with
  | true => simp
  | false => simpa using h

theorem exponentField_ofMagnitudeBits (h : low < 2 ^ 63) :
    (ofMagnitudeBits negative low).exponentField = low / 2 ^ 52 := by
  unfold exponentField
  rw [toNat_bits_ofMagnitudeBits h, Nat.shiftRight_eq_div_pow]
  split <;> omega

theorem fractionField_ofMagnitudeBits (h : low < 2 ^ 63) :
    (ofMagnitudeBits negative low).fractionField = low % 2 ^ 52 := by
  unfold fractionField
  rw [toNat_bits_ofMagnitudeBits h]
  split <;> omega

theorem units_ofMagnitudeBits (h : low < 2 ^ 63) :
    (ofMagnitudeBits negative low).units = magnitude low := by
  unfold units significand scale magnitude
  rw [exponentField_ofMagnitudeBits h, fractionField_ofMagnitudeBits h, Nat.shiftLeft_eq]
  split
  · next he => rw [he]; omega
  · rfl

theorem signedUnits_ofMagnitudeBits (h : low < 2 ^ 63) :
    (ofMagnitudeBits negative low).signedUnits =
      if negative then -(magnitude low : Int) else magnitude low := by
  unfold signedUnits
  rw [negative_ofMagnitudeBits h, units_ofMagnitudeBits h]

end Fields

/-- A whole number that a quotient reaches is not rounded away. -/
theorem le_roundHalfEven {num den k : Nat} (hden : 0 < den) (h : k * den ≤ num) :
    k ≤ roundHalfEven num den := by
  have hk : k ≤ num / den := (Nat.le_div_iff_mul_le hden).2 h
  simp only [roundHalfEven]
  split <;> omega

/-- Beyond the middle a quotient is rounded up. -/
theorem lt_roundHalfEven {num den k : Nat} (hden : 0 < den) (h : (2 * k + 1) * den < 2 * num) :
    k < roundHalfEven num den := by
  have hdiv := Nat.div_add_mod num den
  have hmod := Nat.mod_lt num hden
  by_cases hk : k < num / den
  · simp only [roundHalfEven]
    split <;> omega
  · have hle : num / den ≤ k := by omega
    have hmul : den * (num / den) ≤ den * k := Nat.mul_le_mul_left den hle
    have hexpand : (2 * k + 1) * den = 2 * (den * k) + den := by ring
    have htwice : den < 2 * (num % den) := by omega
    have hq : num / den = k := by
      by_contra hne
      have hsucc : den * (num / den + 1) ≤ den * k := Nat.mul_le_mul_left den (by omega)
      rw [Nat.mul_succ] at hsucc
      omega
    simp [roundHalfEven, htwice, hq]

/-- Up to the middle a quotient is rounded down to an even number. -/
theorem roundHalfEven_le {num den k : Nat} (hden : 0 < den) (heven : k % 2 = 0)
    (h : 2 * num ≤ (2 * k + 1) * den) : roundHalfEven num den ≤ k := by
  have hdiv := Nat.div_add_mod num den
  have hexpand : (2 * k + 1) * den = 2 * (den * k) + den := by ring
  by_cases hk : num / den < k
  · simp only [roundHalfEven]
    split <;> omega
  · have hmul : den * k ≤ den * (num / den) := Nat.mul_le_mul_left den (by omega)
    have hq : num / den = k := by
      by_contra hne
      have hsucc : den * (k + 1) ≤ den * (num / den) := Nat.mul_le_mul_left den (by omega)
      rw [Nat.mul_succ] at hsucc
      omega
    rw [hq] at hdiv
    have htwice : ¬ den < 2 * (num % den) := by omega
    simp [roundHalfEven, htwice, hq, heven]

theorem roundHalfEven_mul_right (num den : Nat) {k : Nat} (hk : 0 < k) :
    roundHalfEven (num * k) (den * k) = roundHalfEven num den := by
  have hmod : 2 * (num % den * k) = 2 * (num % den) * k := by ring
  simp only [roundHalfEven, Nat.mul_div_mul_right num den hk, Nat.mul_mod_mul_right, hmod,
    Nat.mul_lt_mul_right hk, Nat.mul_left_inj (Nat.ne_of_gt hk)]

/-- The exponent is kept as a variable, so that no tactic computes the power. -/
theorem unitsPerOne_eq {shift : Nat} (h : shift = 1074) : unitsPerOne = 2 ^ shift := by
  rw [← Nat.one_shiftLeft, h, unitsPerOne]

/-- Shifting a whole number up does not change how its leading bits are rounded. -/
theorem roundHalfEven_shifted {m : Nat} (hm : m ≠ 0) {shift : Nat} (hshift : 52 ≤ shift) :
    Nat.log2 (m * 2 ^ shift) - 52 = Nat.log2 m + (shift - 52) ∧
    roundHalfEven (m * 2 ^ shift) (2 ^ (Nat.log2 (m * 2 ^ shift) - 52)) =
      roundHalfEven (m * 2 ^ 52) (2 ^ Nat.log2 m) := by
  have hlog : Nat.log2 (m * 2 ^ shift) = Nat.log2 m + shift := by
    rw [Nat.log2_eq_iff (Nat.mul_ne_zero hm (Nat.two_pow_pos shift).ne'), Nat.pow_add,
      Nat.add_right_comm, Nat.pow_add]
    exact ⟨Nat.mul_le_mul_right _ (Nat.log2_self_le hm),
      Nat.mul_lt_mul_of_pos_right Nat.lt_log2_self (Nat.two_pow_pos shift)⟩
  obtain ⟨k, rfl⟩ := Nat.exists_eq_add_of_le hshift
  have hscale : Nat.log2 m + (52 + k) - 52 = Nat.log2 m + k := by omega
  rw [hlog, hscale, Nat.add_sub_cancel_left, Nat.pow_add 2 52 k, Nat.pow_add 2 (Nat.log2 m) k,
    ← Nat.mul_assoc]
  exact ⟨rfl, roundHalfEven_mul_right _ _ (Nat.two_pow_pos k)⟩

theorem nearestBits_eq (num den : Nat) : nearestBits num den =
    roundHalfEven (num * unitsPerOne) (den <<< (Nat.log2 (num * unitsPerOne / den) - 52)) +
      (Nat.log2 (num * unitsPerOne / den) - 52) <<< 52 := rfl

/-- The bits nearest to a whole number: its leading bits rounded, and the place of the first. -/
theorem nearestBits_one {m : Nat} (hm : m ≠ 0) :
    nearestBits m 1 =
      roundHalfEven (m * 2 ^ 52) (2 ^ Nat.log2 m) + (Nat.log2 m + 1022) * 2 ^ 52 := by
  obtain ⟨shift, h⟩ : ∃ shift, shift = 1074 := ⟨_, rfl⟩
  obtain ⟨hscale, hround⟩ := roundHalfEven_shifted hm (show 52 ≤ shift by omega)
  have hplace : shift - 52 = 1022 := by omega
  rw [nearestBits_eq, Nat.div_one, unitsPerOne_eq h, Nat.shiftLeft_eq, Nat.shiftLeft_eq,
    Nat.one_mul, hround, hscale, hplace]

/-- The bits of 2^63, the least whole number above the range of signed words. -/
def rangeBits : Nat := 1086 * 2 ^ 52

theorem magnitude_rangeBits : magnitude rangeBits = 2 ^ 63 * unitsPerOne := by
  obtain ⟨shift, h⟩ : ∃ shift, shift = 1074 := ⟨_, rfl⟩
  obtain ⟨e, he⟩ : ∃ e, e = 1086 := ⟨_, rfl⟩
  have hbits : rangeBits = e * 2 ^ 52 := by rw [he, rangeBits]
  have hsum : 52 + (e - 1) = 63 + shift := by omega
  rw [unitsPerOne_eq h, hbits, magnitude, Nat.mul_div_cancel e (Nat.two_pow_pos 52),
    Nat.mul_mod_left, Nat.add_zero, if_neg (by omega), ← Nat.pow_add, ← Nat.pow_add, hsum]

/-- Rounding keeps the leading bit of a whole number. -/
theorem le_roundHalfEven_leading {m : Nat} (hm : m ≠ 0) :
    2 ^ 52 ≤ roundHalfEven (m * 2 ^ 52) (2 ^ Nat.log2 m) := by
  apply le_roundHalfEven (Nat.two_pow_pos _)
  rw [Nat.mul_comm]
  exact Nat.mul_le_mul_right _ (Nat.log2_self_le hm)

/-- A whole number above the signed words is not rounded into their range. -/
theorem rangeBits_le_nearestBits {m : Nat} (hm : 2 ^ 63 ≤ m) : rangeBits ≤ nearestBits m 1 := by
  have hne : m ≠ 0 := by omega
  have hlog : 63 ≤ Nat.log2 m := (Nat.le_log2 hne).2 hm
  have hround := le_roundHalfEven_leading hne
  rw [nearestBits_one hne, rangeBits]
  omega

/-- Only the next 1024 whole numbers are rounded to 2^63 itself; the double above it is 2048 away. -/
theorem nearestBits_eq_rangeBits_iff {m : Nat} (hm : 2 ^ 63 ≤ m) :
    nearestBits m 1 = rangeBits ↔ m ≤ 2 ^ 63 + 1024 := by
  have hne : m ≠ 0 := by omega
  have hlog : 63 ≤ Nat.log2 m := (Nat.le_log2 hne).2 hm
  have hleading := le_roundHalfEven_leading hne
  rw [nearestBits_one hne, rangeBits]
  by_cases h : Nat.log2 m = 63
  · rw [h] at hleading ⊢
    constructor
    · intro hbits
      by_contra hnext
      have hround : 2 ^ 52 < roundHalfEven (m * 2 ^ 52) (2 ^ 63) :=
        lt_roundHalfEven (Nat.two_pow_pos _) (by omega)
      omega
    · intro hle
      have hround : roundHalfEven (m * 2 ^ 52) (2 ^ 63) ≤ 2 ^ 52 :=
        roundHalfEven_le (Nat.two_pow_pos _) (by omega) (by omega)
      omega
  · have hbig : 2 ^ 64 ≤ m := (Nat.le_log2 hne).1 (by omega)
    constructor <;> intro hbits <;> omega

end Binary64

end TreePath
