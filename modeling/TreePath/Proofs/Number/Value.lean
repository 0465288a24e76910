import Mathlib.Algebra.Order.Field.Basic
import Mathlib.Algebra.Order.Ring.Rat
import Mathlib.Tactic.FieldSimp
import TreePath.Proofs.Number.Whole

/-!
The value of a double as a rational number, and rounding to the nearest. Of all finite doubles the
one that a quotient is rounded to is the nearest to it; where another is as near, it is the even one
of the two.
-/

namespace TreePath

namespace Binary64

/-- The value of a finite number: its significand, scaled by a power of two, with its sign. -/
def value (x : Binary64) : ℚ :=
  (if x.negative then -1 else 1) * x.significand * 2 ^ ((x.scale : ℤ) - 1074)

theorem value_eq (x : Binary64) : x.value = x.signedUnits / unitsPerOne := by
  obtain ⟨shift, h⟩ : ∃ shift, shift = 1074 := ⟨_, rfl⟩
  have hshift : (1074 : ℤ) = (shift : ℤ) := by rw [h]; rfl
  rw [value, unitsPerOne_eq h, hshift, zpow_sub₀ two_ne_zero, zpow_natCast, zpow_natCast,
    signedUnits, units, Nat.shiftLeft_eq]
  split <;> push_cast <;> ring

/-- The value is an integer where the units make up as many ones. -/
theorem value_eq_intCast_iff (x : Binary64) (n : ℤ) :
    x.value = n ↔ x.signedUnits = n * unitsPerOne := by
  have hone : (unitsPerOne : ℚ) ≠ 0 := Nat.cast_ne_zero.2 unitsPerOne_pos.ne'
  rw [value_eq, div_eq_iff hone]
  exact_mod_cast Iff.rfl

/-- How far a value is from a quotient, over the common denominator. -/
theorem abs_value_sub (x : Binary64) (num : ℤ) {den : Nat} (hden : 0 < den) :
    |x.value - num / den| =
      ((x.signedUnits * den - num * unitsPerOne).natAbs : ℚ) / (unitsPerOne * den) := by
  have hone : (0 : ℚ) < unitsPerOne := Nat.cast_pos.2 unitsPerOne_pos
  have hquotient : (0 : ℚ) < den := Nat.cast_pos.2 hden
  have hsub : x.value - num / den =
      ((x.signedUnits * den - num * unitsPerOne : ℤ) : ℚ) / (unitsPerOne * den) := by
    rw [value_eq]
    push_cast
    field_simp
  rw [hsub, abs_div, abs_of_pos (mul_pos hone hquotient), Nat.cast_natAbs, Int.cast_abs]

/-- The number is finite, and the nearest to `q` of all finite numbers. Where another is as near, it
is the one with the even significand. -/
structure IsNearest (x : Binary64) (q : ℚ) : Prop where
  finite : x.isFinite = true
  least : ∀ y : Binary64, y.isFinite = true → |x.value - q| ≤ |y.value - q|
  even : ∀ y : Binary64, y.isFinite = true → |y.value - q| = |x.value - q| →
    y.value = x.value ∨ x.significand % 2 = 0

theorem roundsTo_roundHalfEven (num : Nat) {den : Nat} (hden : 0 < den) :
    RoundsTo num den (roundHalfEven num den) := by
  have hdiv := Nat.div_add_mod num den
  have hmod := Nat.mod_lt num hden
  have hsucc : (num / den + 1) * den = num / den * den + den := Nat.succ_mul _ _
  rw [Nat.mul_comm den] at hdiv
  simp only [roundHalfEven, Bool.or_eq_true, Bool.and_eq_true, decide_eq_true_eq]
  split
  · exact ⟨by omega, by omega, by omega⟩
  · exact ⟨by omega, by omega, by omega⟩

/-- No whole number is nearer to a quotient than the one it is rounded to, and one that is as near
leaves the even one. -/
theorem RoundsTo.natAbs_le {num den k : Nat} (h : RoundsTo num den k) (j : Int) :
    ((k * den : Int) - num).natAbs ≤ (j * den - num).natAbs ∧
      ((j * den - num).natAbs = ((k * den : Int) - num).natAbs → j = k ∨ k % 2 = 0) := by
  obtain ⟨hlow, hhigh, htie⟩ := h
  have hcast : ((k * den : Nat) : Int) = k * den := Int.natCast_mul k den
  rcases Int.lt_trichotomy j k with hlt | rfl | hgt
  · have hstep : (j + 1) * den ≤ (k : Int) * den :=
      Int.mul_le_mul_of_nonneg_right hlt (Int.natCast_nonneg den)
    rw [Int.add_mul, Int.one_mul] at hstep
    omega
  · exact ⟨Nat.le_refl _, fun _ => .inl rfl⟩
  · have hstep : ((k : Int) + 1) * den ≤ j * den :=
      Int.mul_le_mul_of_nonneg_right hgt (Int.natCast_nonneg den)
    rw [Int.add_mul, Int.one_mul] at hstep
    omega

/-- A double that is large enough is a multiple of a power of two. -/
theorem two_pow_dvd_units {x : Binary64} {s : Nat} (h : s = 0 ∨ 2 ^ 52 * 2 ^ s ≤ x.units) :
    2 ^ s ∣ x.units := by
  rw [units, Nat.shiftLeft_eq] at h ⊢
  by_cases hle : s ≤ x.scale
  · exact Dvd.dvd.mul_left (Nat.pow_dvd_pow 2 hle) _
  · obtain ⟨e, rfl⟩ := Nat.exists_eq_succ_of_ne_zero (show s ≠ 0 by omega)
    have hsignificand : x.significand < 2 ^ 53 := by
      rcases x.significand_cases with ⟨-, hlt, -⟩ | ⟨-, heq, -⟩ <;> omega
    have hpow : 2 ^ x.scale ≤ 2 ^ e := Nat.pow_le_pow_right (by decide) (by omega)
    have hsmall : x.significand * 2 ^ x.scale < 2 ^ 53 * 2 ^ e :=
      Nat.mul_lt_mul_of_lt_of_le hsignificand hpow (Nat.two_pow_pos e)
    rw [Nat.pow_succ] at h
    omega

/-- The bits of a significand and a scale, also where the significand carries. -/
theorem magnitude_add {k s : Nat} (hleast : s = 0 ∨ 2 ^ 52 ≤ k) (hgreatest : k ≤ 2 ^ 53) :
    magnitude (k + s * 2 ^ 52) = k * 2 ^ s := by
  unfold magnitude
  by_cases hsmall : k < 2 ^ 52
  · obtain rfl : s = 0 := by omega
    have hdiv : (k + 0 * 2 ^ 52) / 2 ^ 52 = 0 := by omega
    rw [if_pos hdiv]
    omega
  · by_cases hcarry : k = 2 ^ 53
    · have hdiv : (k + s * 2 ^ 52) / 2 ^ 52 = s + 2 := by omega
      have hmod : (k + s * 2 ^ 52) % 2 ^ 52 = 0 := by omega
      rw [hdiv, hmod, if_neg (by omega), hcarry, Nat.add_sub_cancel (s + 1) 1, Nat.pow_succ]
      ring
    · have hdiv : (k + s * 2 ^ 52) / 2 ^ 52 = s + 1 := by omega
      have hmod : 2 ^ 52 + (k + s * 2 ^ 52) % 2 ^ 52 = k := by omega
      rw [hdiv, hmod, if_neg (by omega), Nat.add_sub_cancel]

section Scale

variable (num : Nat) {den : Nat}

/-- A quotient leaves no more than the bits of a significand above its scale. -/
theorem lt_of_scale (hden : 0 < den) :
    num < 2 ^ 53 * (den * 2 ^ (Nat.log2 (num / den) - 52)) := by
  have hlt : num / den < 2 ^ (53 + (Nat.log2 (num / den) - 52)) :=
    Nat.lt_of_lt_of_le Nat.lt_log2_self (Nat.pow_le_pow_right (by decide) (by omega))
  calc num < 2 ^ (53 + (Nat.log2 (num / den) - 52)) * den := (Nat.div_lt_iff_lt_mul hden).1 hlt
    _ = 2 ^ 53 * (den * 2 ^ (Nat.log2 (num / den) - 52)) := by ring

/-- A quotient fills the bits of a significand above its scale, unless the scale is the least. -/
theorem le_of_scale (hden : 0 < den) : Nat.log2 (num / den) - 52 = 0 ∨
    2 ^ 52 * (den * 2 ^ (Nat.log2 (num / den) - 52)) ≤ num := by
  by_cases hscale : Nat.log2 (num / den) - 52 = 0
  · exact .inl hscale
  · have hne : num / den ≠ 0 := by
      intro hzero
      rw [hzero, Nat.log2_zero] at hscale
      contradiction
    have hle : 2 ^ (52 + (Nat.log2 (num / den) - 52)) ≤ num / den :=
      Nat.le_trans (Nat.pow_le_pow_right (by decide) (by omega)) (Nat.log2_self_le hne)
    refine .inr ?_
    calc 2 ^ 52 * (den * 2 ^ (Nat.log2 (num / den) - 52))
        = 2 ^ (52 + (Nat.log2 (num / den) - 52)) * den := by ring
      _ ≤ num := (Nat.le_div_iff_mul_le hden).1 hle

end Scale

/-- The bits nearest to a quotient are a significand, to which the quotient is rounded, and a scale
with which the significand fills its bits. -/
theorem exists_nearestBits_eq (num : Nat) {den : Nat} (hden : 0 < den) :
    ∃ k s, nearestBits num den = k + s * 2 ^ 52 ∧ k ≤ 2 ^ 53 ∧ (s = 0 ∨ 2 ^ 52 ≤ k) ∧
      (s = 0 ∨ 2 ^ 52 * (den * 2 ^ s) ≤ num * unitsPerOne) ∧
      RoundsTo (num * unitsPerOne) (den * 2 ^ s) k := by
  have hgreatest := lt_of_scale (num * unitsPerOne) hden
  have hleast := le_of_scale (num * unitsPerOne) hden
  rw [nearestBits_eq, Nat.shiftLeft_eq, Nat.shiftLeft_eq]
  generalize Nat.log2 (num * unitsPerOne / den) - 52 = s at *
  have hstep : 0 < den * 2 ^ s := Nat.mul_pos hden (Nat.two_pow_pos s)
  have hround := roundsTo_roundHalfEven (num * unitsPerOne) hstep
  refine ⟨_, s, rfl, ?_, hleast.imp_right (le_roundHalfEven hstep), hleast, hround⟩
  have hlow := hround.low
  generalize roundHalfEven (num * unitsPerOne) (den * 2 ^ s) = k at *
  have htwice : 2 * k < 2 ^ 54 + 1 := by
    apply Nat.lt_of_mul_lt_mul_right (a := den * 2 ^ s)
    rw [Nat.mul_assoc, Nat.add_mul, Nat.one_mul]
    omega
  omega

/-- No finite number is nearer to a quotient than the rounded significand at its scale, whatever the
signs; and one that is as near equals it, or leaves the even significand. -/
theorem natAbs_le_of_roundsTo {num den k s : Nat} (hden : 0 < den)
    (hleast : s = 0 ∨ 2 ^ 52 * (den * 2 ^ s) ≤ num) (hround : RoundsTo num (den * 2 ^ s) k)
    {y : Binary64} {v : Int} (hv : v.natAbs = y.units) :
    ((k * 2 ^ s : Nat) * den - num : Int).natAbs ≤ (v * den - num).natAbs ∧
      ((v * den - num).natAbs = ((k * 2 ^ s : Nat) * den - num : Int).natAbs →
        v = (k * 2 ^ s : Nat) ∨ k % 2 = 0) := by
  have hk : ((k * 2 ^ s : Nat) : Int) * den = k * (den * 2 ^ s : Nat) := by push_cast; ring
  by_cases hlarge : s = 0 ∨ ((2 ^ 52 * 2 ^ s : Nat) : Int) ≤ v
  · -- The other number is at the same scale or above.
    have hdvd : 2 ^ s ∣ v.natAbs := by
      rw [hv]
      exact two_pow_dvd_units (hlarge.imp_right fun h => by omega)
    obtain ⟨j, hj⟩ := Int.natCast_dvd.2 hdvd
    have hscaled : v * den = j * (den * 2 ^ s : Nat) := by
      rw [hj]
      push_cast
      ring
    obtain ⟨hle, htie⟩ := hround.natAbs_le j
    rw [hk, hscaled]
    refine ⟨hle, fun h => (htie h).imp_left ?_⟩
    rintro rfl
    rw [hj, Nat.mul_comm]
    rfl
  · -- The other number is below the least significand that fills its bits at the scale.
    rw [not_or, Int.not_le] at hlarge
    have hnum := hleast.resolve_left hlarge.1
    have hbelow : v * den < ((2 ^ 52 * (den * 2 ^ s) : Nat) : Int) := by
      calc v * den < ((2 ^ 52 * 2 ^ s : Nat) : Int) * den :=
            Int.mul_lt_mul_of_pos_right hlarge.2 (Int.natCast_pos.2 hden)
        _ = ((2 ^ 52 * (den * 2 ^ s) : Nat) : Int) := by push_cast; ring
    obtain ⟨hle, -⟩ := hround.natAbs_le (2 ^ 52 : Nat)
    rw [← Int.natCast_mul (2 ^ 52)] at hle
    rw [hk]
    constructor <;> omega

def signed (negative : Bool) (n : Int) : Int := if negative then -n else n

theorem signed_signed (negative : Bool) (n : Int) : signed negative (signed negative n) = n := by
  cases negative <;> simp [signed]

theorem natAbs_signed (negative : Bool) (n : Int) : (signed negative n).natAbs = n.natAbs := by
  cases negative <;> simp [signed]

/-- Turning both signs leaves the distance. -/
theorem natAbs_signed_sub (negative : Bool) (m n : Int) (den unit : Nat) :
    (signed negative m * den - signed negative n * unit).natAbs = (m * den - n * unit).natAbs := by
  cases negative with
  | true =>
    simp only [signed, if_true, Int.neg_mul]
    omega
  | false => rfl

theorem natAbs_signedUnits (x : Binary64) : x.signedUnits.natAbs = x.units := by
  unfold signedUnits
  split <;> simp

/-- With both signs turned, the distance is that of the magnitudes. -/
theorem abs_value_sub_signed (y : Binary64) (negative : Bool) (num : Nat) {den : Nat}
    (hden : 0 < den) : |y.value - signed negative num / den| =
      ((signed negative y.signedUnits * den - (num * unitsPerOne : Nat)).natAbs : ℚ) /
        (unitsPerOne * den) := by
  have hsigns := natAbs_signed_sub negative (signed negative y.signedUnits) num den unitsPerOne
  rw [signed_signed] at hsigns
  rw [y.abs_value_sub _ hden, hsigns, Int.natCast_mul]

theorem isFinite_ofMagnitudeBits {negative : Bool} {low : Nat} (h : low < infinityBits) :
    (ofMagnitudeBits negative low).isFinite = true := by
  have hlt := infinityBits_lt
  have hinfinity : infinityBits = 2047 * 2 ^ 52 := rfl
  rw [isFinite, exponentField_ofMagnitudeBits (by omega), decide_eq_true_eq]
  omega

/-- The lowest bit is that of the significand. -/
theorem significand_ofMagnitudeBits_mod_two {negative : Bool} {low : Nat} (h : low < 2 ^ 63) :
    (ofMagnitudeBits negative low).significand % 2 = low % 2 := by
  rw [significand, exponentField_ofMagnitudeBits h, fractionField_ofMagnitudeBits h]
  split <;> omega

/-- A quotient that is not too large is rounded to the number nearest to it. -/
theorem isNearest_nearest (negative : Bool) (num : Nat) {den : Nat} (hden : 0 < den)
    (hfinite : nearestBits num den < infinityBits) :
    IsNearest (nearest negative num den) (signed negative num / den) := by
  obtain ⟨k, s, hbits, hgreatest, hfull, hleast, hround⟩ := exists_nearestBits_eq num hden
  have hlt := infinityBits_lt
  have hpos : (0 : ℚ) < unitsPerOne * den :=
    mul_pos (Nat.cast_pos.2 unitsPerOne_pos) (Nat.cast_pos.2 hden)
  have hclosest (y : Binary64) := natAbs_le_of_roundsTo hden hleast hround
    ((natAbs_signed negative y.signedUnits).trans y.natAbs_signedUnits)
  rw [nearest, Nat.min_eq_left hfinite.le]
  rw [hbits] at hfinite ⊢
  have hvalue : signed negative (ofMagnitudeBits negative (k + s * 2 ^ 52)).signedUnits =
      (k * 2 ^ s : Nat) := by
    rw [signedUnits_ofMagnitudeBits (by omega), magnitude_add hfull hgreatest]
    exact signed_signed negative _
  refine ⟨isFinite_ofMagnitudeBits hfinite, ?_, ?_⟩
  · intro y _
    rw [abs_value_sub_signed _ _ _ hden, abs_value_sub_signed _ _ _ hden, hvalue,
      div_le_div_iff_of_pos_right hpos, Nat.cast_le]
    exact (hclosest y).1
  · intro y _ htie
    rw [abs_value_sub_signed _ _ _ hden, abs_value_sub_signed _ _ _ hden, hvalue,
      div_left_inj' hpos.ne', Nat.cast_inj] at htie
    rcases (hclosest y).2 htie with hsame | heven
    · rw [← hvalue] at hsame
      have hunits := congrArg (signed negative) hsame
      rw [signed_signed, signed_signed] at hunits
      rw [value_eq, value_eq, hunits]
      exact .inl rfl
    · rw [significand_ofMagnitudeBits_mod_two (by omega)]
      exact .inr (by omega)

/-- Integers in the range of words, with a sign or without, are not too large. -/
theorem nearestBits_lt_infinityBits {m : Nat} (hm : m ≤ 2 ^ 64) :
    nearestBits m 1 < infinityBits := by
  obtain ⟨shift, hshift⟩ : ∃ shift, shift = 1074 := ⟨_, rfl⟩
  obtain ⟨k, s, hbits, hgreatest, -, hleast, -⟩ := exists_nearestBits_eq m Nat.one_pos
  have hinfinity : infinityBits = 2047 * 2 ^ 52 := rfl
  have hscale : s ≤ 12 + shift := by
    rcases hleast with rfl | hleast
    · omega
    · have hpow : 2 ^ (52 + s) ≤ 2 ^ (64 + shift) := by
        rw [Nat.pow_add, Nat.pow_add, ← unitsPerOne_eq hshift]
        rw [Nat.one_mul] at hleast
        exact Nat.le_trans hleast (Nat.mul_le_mul_right _ hm)
      have hexponent := (Nat.pow_le_pow_iff_right (Nat.one_lt_two)).1 hpow
      omega
  omega

/-- An integer in the range of words is rounded to the number nearest to it. -/
theorem isNearest_ofInt {n : Int} (hn : n.natAbs ≤ 2 ^ 64) : IsNearest (ofInt n) n := by
  have hsigned : signed (n < 0) n.natAbs = n := by
    by_cases h : n < 0 <;> simp only [signed, h, decide_true, decide_false, if_true,
      Bool.false_eq_true, if_false] <;> omega
  have hnearest := isNearest_nearest (n < 0) n.natAbs Nat.one_pos (nearestBits_lt_infinityBits hn)
  rw [hsigned, Nat.cast_one, div_one] at hnearest
  exact hnearest

end Binary64

end TreePath
