import TreePath.Proofs.Number.Nearest

/-!
Doubles as whole numbers. A double is read as a signed word exactly when it is finite and equals that
word: nothing is behind its point, and its bits are between those of the bounds. A whole number that no
signed word equals is rounded to a double that none equals either, but for the few that are rounded up
to the least word.
-/

namespace TreePath

/-- A word is found in the range of words and nowhere else. -/
theorem int64?_eq_ite (n : Int) :
    int64? n = if -2 ^ 63 ≤ n ∧ n ≤ 2 ^ 63 - 1 then some (Int64.ofInt n) else none := by
  split
  · next h => exact int64?_eq_some_iff.2 (Int64.toInt_ofInt_of_le h.1 (by omega))
  · next h =>
    rw [Option.eq_none_iff_forall_ne_some]
    intro w hw
    have hn := int64?_eq_some_iff.1 hw
    have hge := Int64.le_toInt w
    have hlt := Int64.toInt_lt w
    omega

theorem int32?_eq_ite (n : Int) :
    int32? n = if -2 ^ 31 ≤ n ∧ n ≤ 2 ^ 31 - 1 then some (Int32.ofInt n) else none := by
  split
  · next h => exact int32?_eq_some_iff.2 (Int32.toInt_ofInt_of_le h.1 (by omega))
  · next h =>
    rw [Option.eq_none_iff_forall_ne_some]
    intro w hw
    have hn := int32?_eq_some_iff.1 hw
    have hge := Int32.le_toInt w
    have hlt := Int32.toInt_lt w
    omega

namespace Binary64

theorem unitsPerOne_pos : 0 < unitsPerOne := by
  obtain ⟨shift, h⟩ : ∃ shift, shift = 1074 := ⟨_, rfl⟩
  rw [unitsPerOne_eq h]
  exact Nat.two_pow_pos shift

/-- The sign does not matter for whether a number is whole. -/
theorem units_mod_eq_zero_iff (x : Binary64) (unit : Nat) :
    x.units % unit = 0 ↔ (unit : Int) ∣ x.signedUnits := by
  unfold signedUnits
  split
  · rw [Int.dvd_neg, Int.natCast_dvd_natCast, Nat.dvd_iff_mod_eq_zero]
  · rw [Int.natCast_dvd_natCast, Nat.dvd_iff_mod_eq_zero]

section Order

variable {x y : Binary64}

theorem low_lt (x : Binary64) : x.low < 2 ^ 63 := Nat.mod_lt _ (by decide)

theorem units_eq_magnitude (x : Binary64) : x.units = magnitude x.low := by
  rw [← units_ofMagnitudeBits x.low_lt, ofMagnitudeBits_low]

/-- The low bits with the sign are in the order of the values. -/
theorem rank_le_iff : x.rank ≤ y.rank ↔ x.signedUnits ≤ y.signedUnits := by
  have hle := magnitude_strictMono.le_iff_le (a := x.low) (b := y.low)
  have hge := magnitude_strictMono.le_iff_le (a := y.low) (b := x.low)
  have hx := magnitude_strictMono.le_iff_le (a := x.low) (b := 0)
  have hy := magnitude_strictMono.le_iff_le (a := y.low) (b := 0)
  have hzero : magnitude 0 = 0 := rfl
  rw [rank, rank, signedUnits, signedUnits, units_eq_magnitude, units_eq_magnitude]
  cases x.negative <;> cases y.negative <;>
    simp only [if_true, Bool.false_eq_true, if_false] <;> omega

/-- A double is finite, infinite or no number. -/
theorem isFinite_eq_false_iff (x : Binary64) :
    x.isFinite = false ↔ x.isNaN = true ∨ x.isInfinite = true := by
  have hlt := x.exponentField_lt
  simp only [isFinite, isNaN, isInfinite, Bool.and_eq_true, decide_eq_true_eq,
    decide_eq_false_iff_not]
  omega

theorem ordinary_of_isFinite (hx : x.isFinite = true) :
    x.isNaN = false ∧ x.isInfinite = false := by
  simpa [hx] using x.isFinite_eq_false_iff

theorem le_iff (hx : x.isFinite = true) (hy : y.isFinite = true) :
    x.le y = true ↔ x.signedUnits ≤ y.signedUnits := by
  simp [le, (ordinary_of_isFinite hx).1, (ordinary_of_isFinite hy).1, rank_le_iff]

theorem lt_iff (hx : x.isFinite = true) (hy : y.isFinite = true) :
    x.lt y = true ↔ x.signedUnits < y.signedUnits := by
  rw [← Int.not_le, ← rank_le_iff]
  simp [lt, (ordinary_of_isFinite hx).1, (ordinary_of_isFinite hy).1]

/-- A number equals zero where it has no magnitude, whatever its sign. -/
theorem equal_zero_iff : x.equal zero = true ↔ x.isFinite = true ∧ x.units = 0 := by
  have hzero : zero.isNaN = false ∧ zero.isFinite = true ∧ zero.units = 0 := by decide
  obtain ⟨hnan, hfinite, hunits⟩ := hzero
  simp only [equal, hnan, hfinite, hunits, Bool.and_eq_true, Bool.or_eq_true, decide_eq_true_eq,
    Bool.not_eq_true', Bool.not_false, and_true]
  constructor
  · rintro ⟨-, hbits | h⟩
    · obtain rfl : x = zero := by
        cases x
        exact congrArg mk hbits
      exact ⟨hfinite, hunits⟩
    · exact h
  · intro h
    exact ⟨(ordinary_of_isFinite h.1).1, .inr h⟩

end Order

/-- The bits of infinity leave the sign alone. -/
theorem infinityBits_lt : infinityBits < 2 ^ 63 := by decide

/-- A quotient is rounded to zero where the bits nearest to it are zero. -/
theorem nearest_equal_zero_iff {negative : Bool} {num den : Nat} :
    (nearest negative num den).equal zero = true ↔ nearestBits num den = 0 := by
  have hlt := infinityBits_lt
  have hinfinity : 0 < infinityBits := by decide
  have hmagnitude : magnitude (min (nearestBits num den) infinityBits) = magnitude 0 ↔
      min (nearestBits num den) infinityBits = 0 := magnitude_strictMono.injective.eq_iff
  have hmin : min (nearestBits num den) infinityBits = 0 ↔ nearestBits num den = 0 := by omega
  have hzero : magnitude 0 = 0 := rfl
  rw [hzero, hmin] at hmagnitude
  rw [equal_zero_iff, nearest, units_ofMagnitudeBits (by omega), hmagnitude]
  constructor
  · intro h
    exact h.2
  · intro h
    rw [h, Nat.zero_min]
    refine ⟨?_, rfl⟩
    cases negative <;> decide

/-- A count of units below one is not rounded to zero. -/
theorem nearestBits_units_eq_zero_iff (rest : Nat) : nearestBits rest unitsPerOne = 0 ↔ rest = 0 := by
  have hpos := unitsPerOne_pos
  rw [nearestBits_eq, Nat.mul_div_cancel rest hpos]
  constructor
  · intro h
    by_contra hne
    by_cases hlog : Nat.log2 rest - 52 = 0
    · have hround : 1 ≤ roundHalfEven (rest * unitsPerOne) unitsPerOne :=
        le_roundHalfEven hpos (Nat.mul_le_mul_right _ (Nat.one_le_iff_ne_zero.2 hne))
      rw [hlog, Nat.shiftLeft_zero] at h
      omega
    · rw [Nat.shiftLeft_eq _ 52] at h
      omega
  · rintro rfl
    simp [roundHalfEven]

/-- A number without anything behind its point is finite and whole. -/
theorem fract_equal_zero_iff (x : Binary64) :
    x.fract.equal zero = true ↔ x.isFinite = true ∧ (unitsPerOne : Int) ∣ x.signedUnits := by
  unfold fract
  split
  · next hfinite =>
    rw [nearest_equal_zero_iff, nearestBits_units_eq_zero_iff, units_mod_eq_zero_iff]
    exact (and_iff_right hfinite).symm
  · next hfinite =>
    have hnan : nan.equal zero = false := by decide
    simp [hnan, hfinite]

/-- The bounds of the signed words, as doubles: the upper one is rounded up. -/
theorem ofInt_bounds : ofInt Int64.minValue.toInt = ofMagnitudeBits true rangeBits ∧
    ofInt Int64.maxValue.toInt = ofMagnitudeBits false rangeBits := by
  decide +kernel

theorem isFinite_rangeBits (negative : Bool) :
    (ofMagnitudeBits negative rangeBits).isFinite = true := by
  cases negative <;> decide

theorem signedUnits_rangeBits (negative : Bool) : (ofMagnitudeBits negative rangeBits).signedUnits =
    (if negative then -2 ^ 63 else 2 ^ 63) * unitsPerOne := by
  rw [signedUnits_ofMagnitudeBits (by decide), magnitude_rangeBits, Int.natCast_mul]
  cases negative with
  | true => exact (Int.neg_mul _ _).symm
  | false => rfl

/-- A whole number in range is left as it is. -/
theorem toInt64_of_signedUnits {x : Binary64} {n : Int} (hfinite : x.isFinite = true)
    (hvalue : x.signedUnits = n * unitsPerOne) (hleast : -2 ^ 63 ≤ n) (hgreatest : n < 2 ^ 63) :
    x.toInt64 = Int64.ofInt n := by
  have hpos : (unitsPerOne : Int) ≠ 0 := Int.natCast_ne_zero.2 unitsPerOne_pos.ne'
  have hmin := Int64.toInt_minValue
  have hmax := Int64.toInt_maxValue
  have hclamp : max Int64.minValue.toInt (min Int64.maxValue.toInt n) = n := by omega
  obtain ⟨hnan, hinfinite⟩ := ordinary_of_isFinite hfinite
  rw [toInt64, hnan, hinfinite, hvalue, Int.mul_tdiv_cancel n hpos, hclamp]
  rfl

/-- The test of a number: it is finite, whole, and in the range of signed words. -/
theorem toInt64?_test_iff (x : Binary64) :
    (x.fract.equal zero && (ofInt Int64.minValue.toInt).le x &&
        x.lt (ofInt Int64.maxValue.toInt)) = true ↔
      x.isFinite = true ∧
        ∃ n : Int, x.signedUnits = n * unitsPerOne ∧ -2 ^ 63 ≤ n ∧ n < 2 ^ 63 := by
  have hpos : (0 : Int) < unitsPerOne := Int.natCast_pos.2 unitsPerOne_pos
  have hbounds (hfinite : x.isFinite = true) {n : Int} (hn : x.signedUnits = n * unitsPerOne) :
      ((ofInt Int64.minValue.toInt).le x = true ↔ -2 ^ 63 ≤ n) ∧
        (x.lt (ofInt Int64.maxValue.toInt) = true ↔ n < 2 ^ 63) := by
    rw [ofInt_bounds.1, ofInt_bounds.2, le_iff (isFinite_rangeBits true) hfinite,
      lt_iff hfinite (isFinite_rangeBits false), signedUnits_rangeBits, signedUnits_rangeBits, hn]
    exact ⟨Int.mul_le_mul_right hpos, Int.mul_lt_mul_right hpos⟩
  rw [Bool.and_eq_true, Bool.and_eq_true, fract_equal_zero_iff]
  constructor
  · rintro ⟨⟨⟨hfinite, n, hn⟩, hleast⟩, hgreatest⟩
    rw [Int.mul_comm] at hn
    obtain ⟨hle, hlt⟩ := hbounds hfinite hn
    exact ⟨hfinite, n, hn, hle.1 hleast, hlt.1 hgreatest⟩
  · rintro ⟨hfinite, n, hn, hleast, hgreatest⟩
    obtain ⟨hle, hlt⟩ := hbounds hfinite hn
    exact ⟨⟨⟨hfinite, n, by rw [hn, Int.mul_comm]⟩, hle.2 hleast⟩, hlt.2 hgreatest⟩

/-- A double is read as a signed word exactly when it is finite and equals it. -/
theorem toInt64?_eq_some_iff {x : Binary64} {i : Int64} :
    x.toInt64? = some i ↔ x.isFinite = true ∧ x.signedUnits = i.toInt * unitsPerOne := by
  have htest := x.toInt64?_test_iff
  unfold toInt64?
  constructor
  · intro h
    split at h
    · next hpass =>
      obtain ⟨hfinite, n, hn, hleast, hgreatest⟩ := htest.1 hpass
      rw [toInt64_of_signedUnits hfinite hn hleast hgreatest] at h
      rw [← Option.some.inj h, Int64.toInt_ofInt_of_le hleast hgreatest]
      exact ⟨hfinite, hn⟩
    · contradiction
  · rintro ⟨hfinite, hvalue⟩
    have hleast := Int64.le_toInt i
    have hgreatest := Int64.toInt_lt i
    rw [if_pos (htest.2 ⟨hfinite, i.toInt, hvalue, hleast, hgreatest⟩),
      toInt64_of_signedUnits hfinite hvalue hleast hgreatest, Int64.ofInt_toInt]

/-- Bits that stand for 2^63 or more make no signed word but the least, and it only exactly. -/
theorem toInt64?_ofMagnitudeBits_eq_some_iff {negative : Bool} {low : Nat}
    (hrange : rangeBits ≤ low) (hlow : low < 2 ^ 63) {i : Int64} :
    (ofMagnitudeBits negative low).toInt64? = some i ↔
      negative = true ∧ low = rangeBits ∧ i = Int64.minValue := by
  have hpos : (0 : Int) < unitsPerOne := Int.natCast_pos.2 unitsPerOne_pos
  have hbits : (magnitude rangeBits : Int) = 2 ^ 63 * unitsPerOne := by
    rw [magnitude_rangeBits, Int.natCast_mul]
    rfl
  have hmagnitude : (magnitude rangeBits : Int) ≤ magnitude low :=
    Int.ofNat_le.2 (magnitude_strictMono.monotone hrange)
  have hmin := Int64.toInt_minValue
  have hge := Int64.le_toInt i
  have hlt := Int64.toInt_lt i
  rw [toInt64?_eq_some_iff, signedUnits_ofMagnitudeBits hlow]
  constructor
  · rintro ⟨-, hvalue⟩
    cases negative with
    | false =>
      -- Without the sign the value is 2^63 or more, and no signed word is.
      rw [if_neg Bool.false_ne_true] at hvalue
      have hword : (2 ^ 63 : Int) ≤ i.toInt := Int.le_of_mul_le_mul_right (by omega) hpos
      omega
    | true =>
      rw [if_pos rfl] at hvalue
      have hword : i.toInt ≤ -2 ^ 63 := by
        apply Int.le_of_mul_le_mul_right _ hpos
        rw [Int.neg_mul]
        omega
      have hleast : i.toInt = -2 ^ 63 := by omega
      have hsame : magnitude low = magnitude rangeBits := by
        rw [hleast, Int.neg_mul] at hvalue
        omega
      exact ⟨rfl, magnitude_strictMono.injective hsame, Int64.toInt_inj.1 (by rw [hleast, hmin])⟩
  · rintro ⟨rfl, rfl, rfl⟩
    refine ⟨isFinite_rangeBits true, ?_⟩
    rw [if_pos rfl, hbits, hmin, Int.neg_mul]

/-- A whole number outside the range of signed words makes one exactly where it is rounded to the
least of them. -/
theorem toInt64?_ofInt_eq_some_iff {n : Int} (hn : n < -2 ^ 63 ∨ 2 ^ 63 ≤ n) {i : Int64} :
    (ofInt n).toInt64? = some i ↔
      (-2 ^ 63 - 1024 ≤ n ∧ n < -2 ^ 63) ∧ i = Int64.minValue := by
  have habs : 2 ^ 63 ≤ n.natAbs := by omega
  have hbits := rangeBits_le_nearestBits habs
  have hinfinity : rangeBits < infinityBits := by decide
  have hsign : decide (n < 0) = true ↔ n < 0 := decide_eq_true_iff
  have hlow : min (nearestBits n.natAbs 1) infinityBits = rangeBits ↔
      n.natAbs ≤ 2 ^ 63 + 1024 := by
    rw [← nearestBits_eq_rangeBits_iff habs]
    omega
  have hlt := infinityBits_lt
  rw [ofInt, nearest, toInt64?_ofMagnitudeBits_eq_some_iff (by omega) (by omega), hlow, hsign,
    ← and_assoc]
  apply and_congr_left'
  omega

/-- A decimal without an exponent is the nearest double to its digits. -/
theorem ofDecimal_zero (negative : Bool) {mantissa : Nat} (hm : mantissa ≠ 0) :
    ofDecimal negative mantissa 0 = nearest negative mantissa 1 := by
  unfold ofDecimal
  rw [if_neg (by simp [hm]), if_neg (by decide), if_pos (by decide)]
  congr 1
  exact Nat.mul_one mantissa

/-- Minus zero is a whole number like zero. -/
theorem toInt64?_minus_zero : (ofMagnitudeBits true 0).toInt64? = some 0 := by
  rw [toInt64?_eq_some_iff, signedUnits_ofMagnitudeBits (by decide)]
  exact ⟨by decide, by simp [magnitude]⟩

end Binary64

end TreePath
