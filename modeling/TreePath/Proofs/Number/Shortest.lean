import TreePath.Proofs.Number.Nearest
import TreePath.Proofs.Number.Whole

/-!
The shortest decimal of a finite number reads back as the number. Grids are tried until one has a
point in the interval, and twenty-four grids are enough: the last of them is finer than the interval
is wide.
-/

namespace TreePath

/-- Whether a decimal lies in the interval of a number. -/
def Decimal.Within (d : Decimal) (x : Binary64) : Prop :=
  x.interval.holds (10 ^ (-d.exponent).toNat) (4 * Binary64.unitsPerOne)
    (d.digits * 10 ^ d.exponent.toNat) = true

namespace Binary64

variable {x : Binary64}

theorem Interval.holds_unit_mul (i : Interval) (factor unit point k : Nat) :
    i.holds factor (unit * k) point = i.holds factor unit (point * k) := by
  have hpoint : point * (unit * k) = point * k * unit := by ring
  unfold holds
  rw [hpoint]

/-- The place of a point does not depend on how finely it is counted. -/
theorem Interval.holds_mul_right (i : Interval) (factor unit point : Nat) {k : Nat} (hk : 0 < k) :
    i.holds (factor * k) unit (point * k) = i.holds factor unit point := by
  have hpoint : point * k * unit = point * unit * k := by ring
  simp only [holds, ← Nat.mul_assoc, hpoint, Nat.mul_le_mul_right_iff hk, Nat.mul_lt_mul_right hk]

theorem nearerNeighbour_cases (tie : Tie) (num den : Nat) :
    nearerNeighbour tie num den = num / den ∨ nearerNeighbour tie num den = num / den + 1 := by
  unfold nearerNeighbour
  dsimp only
  split
  · exact .inl rfl
  · split
    · exact .inr rfl
    · cases tie with
      | toEven =>
        dsimp only
        split
        · exact .inl rfl
        · exact .inr rfl
      | upward => exact .inr rfl

/-- A point of a grid that stands for a number lies in its interval. -/
theorem within_of_onGrid? {tie : Tie} {exponent : Int} {digits : Nat}
    (h : x.onGrid? tie exponent = some digits) : Decimal.Within ⟨digits, exponent⟩ x := by
  unfold Decimal.Within
  rw [← Interval.holds_unit_mul]
  simp only [onGrid?, Nat.pow_eq] at h
  split at h
  · next hbelow habove =>
    rw [← Option.some.inj h]
    rcases nearerNeighbour_cases tie _ _ with hd | hd
    · rw [hd]
      exact hbelow
    · rw [hd]
      exact habove
  · next hbelow _ =>
    rw [← Option.some.inj h]
    exact hbelow
  · next _ habove =>
    rw [← Option.some.inj h]
    exact habove
  · contradiction

/-- On a grid that is finer than half of the interval, the first point above the number lies in the
interval. -/
theorem isSome_onGrid? (tie : Tie) {exponent : Int}
    (h : 4 * unitsPerOne * 10 ^ exponent.toNat < 2 * 2 ^ x.scale * 10 ^ (-exponent).toNat) :
    (x.onGrid? tie exponent).isSome = true := by
  have hpos : 0 < 4 * unitsPerOne * 10 ^ exponent.toNat :=
    Nat.mul_pos (Nat.mul_pos (by decide) unitsPerOne_pos) (Nat.pow_pos (by decide))
  have hlow : x.interval.low ≤ 4 * x.units := Nat.sub_le _ _
  have hhigh : x.interval.high = 4 * x.units + 2 * 2 ^ x.scale := by
    simp only [interval, Nat.shiftLeft_eq]
  simp only [onGrid?, Nat.pow_eq]
  generalize 4 * unitsPerOne * 10 ^ exponent.toNat = step at *
  generalize 10 ^ (-exponent).toNat = factor at *
  have hdiv := Nat.div_add_mod (4 * x.units * factor) step
  have hmod := Nat.mod_lt (4 * x.units * factor) hpos
  have habove : x.interval.holds factor step (4 * x.units * factor / step + 1) = true := by
    have hleast := Nat.mul_le_mul_right factor hlow
    have hpoint : (4 * x.units * factor / step + 1) * step =
        step * (4 * x.units * factor / step) + step := by ring
    rw [Interval.holds_iff, hhigh, hpoint, Nat.add_mul]
    exact ⟨by omega, by omega, .inr ⟨by omega, by omega⟩⟩
  rw [habove]
  cases x.interval.holds factor step (4 * x.units * factor / step) <;> rfl

/-- Where one of the grids has a point, the result is a point of that grid or of one before it. -/
theorem firstGrid_spec {tie : Tie} {count : Nat} {exponent : Int} {j : Nat} (hj : j < count)
    (hsome : (x.onGrid? tie (exponent - j)).isSome = true) :
    (firstGrid tie x count exponent).Within x ∧
      exponent - j ≤ (firstGrid tie x count exponent).exponent ∧
      (firstGrid tie x count exponent).exponent ≤ exponent := by
  induction count generalizing exponent j with
  | zero => omega
  | succ count ih =>
    cases h : x.onGrid? tie exponent with
    | some digits =>
      simp only [firstGrid, h]
      exact ⟨within_of_onGrid? h, by omega, le_rfl⟩
    | none =>
      simp only [firstGrid, h]
      cases j with
      | zero => simp [h] at hsome
      | succ j =>
        have hnext : exponent - 1 - (j : Int) = exponent - (j + 1 : Nat) := by omega
        rw [← hnext] at hsome ⊢
        obtain ⟨hwithin, hleast, hgreatest⟩ := ih (by omega) hsome
        exact ⟨hwithin, hleast, by omega⟩

/-- Ten decimal digits hold thirty-three bits, and one holds three. -/
theorem two_pow_le_ten_pow (k : Nat) : 2 ^ k ≤ 10 ^ (10 * (k / 33) + (k % 33 + 2) / 3) := by
  have hk : k = 33 * (k / 33) + k % 33 := by omega
  have hrest : k % 33 ≤ 3 * ((k % 33 + 2) / 3) := by omega
  calc 2 ^ k = (2 ^ 33) ^ (k / 33) * 2 ^ (k % 33) := by rw [← Nat.pow_mul, ← Nat.pow_add, ← hk]
    _ ≤ (10 ^ 10) ^ (k / 33) * (2 ^ 3) ^ ((k % 33 + 2) / 3) := by
      rw [← Nat.pow_mul 2 3]
      exact Nat.mul_le_mul (Nat.pow_le_pow_left (by decide) _)
        (Nat.pow_le_pow_right (by decide) hrest)
    _ ≤ (10 ^ 10) ^ (k / 33) * 10 ^ ((k % 33 + 2) / 3) :=
      Nat.mul_le_mul_left _ (Nat.pow_le_pow_left (by decide) _)
    _ = 10 ^ (10 * (k / 33) + (k % 33 + 2) / 3) := by rw [← Nat.pow_mul, Nat.pow_add]

/-- Ten bits hold three decimal digits. -/
theorem ten_pow_le_two_pow (k : Nat) : 10 ^ k ≤ 2 ^ (10 * ((k + 2) / 3)) := by
  have hk : k ≤ 3 * ((k + 2) / 3) := by omega
  calc 10 ^ k ≤ 10 ^ (3 * ((k + 2) / 3)) := Nat.pow_le_pow_right (by decide) hk
    _ = (10 ^ 3) ^ ((k + 2) / 3) := Nat.pow_mul 10 3 _
    _ ≤ (2 ^ 10) ^ ((k + 2) / 3) := Nat.pow_le_pow_left (by decide) _
    _ = 2 ^ (10 * ((k + 2) / 3)) := (Nat.pow_mul 2 10 _).symm

theorem scale_le (x : Binary64) : x.scale ≤ 2046 := by
  have h := x.exponentField_lt
  unfold scale
  omega

theorem log2_units_le (x : Binary64) (hunits : x.units ≠ 0) : Nat.log2 x.units ≤ 52 + x.scale := by
  have hlt : x.significand < 2 ^ 53 := by
    rcases x.significand_cases with ⟨-, h, -⟩ | ⟨-, h, -⟩ <;> omega
  have hbound : x.units < 2 ^ (53 + x.scale) := by
    rw [units, Nat.shiftLeft_eq, Nat.pow_add]
    exact Nat.mul_lt_mul_of_pos_right hlt (Nat.two_pow_pos _)
  have hlog := (Nat.log2_lt hunits).2 hbound
  omega

/-- The last of the grids that are tried is finer than half of the interval. -/
theorem finest_grid (x : Binary64) (hunits : x.units ≠ 0) :
    4 * unitsPerOne * 10 ^ (x.coarsest - 23).toNat <
      2 * 2 ^ x.scale * 10 ^ (-(x.coarsest - 23)).toNat := by
  obtain ⟨shift, hshift⟩ : ∃ shift, shift = 1074 := ⟨_, rfl⟩
  have hscale := x.scale_le
  have hlog := x.log2_units_le hunits
  have hleft : 4 * 2 ^ shift = 2 ^ (shift + 2) := by rw [Nat.pow_add, Nat.mul_comm]
  have hright : 2 * 2 ^ x.scale = 2 ^ (x.scale + 1) := by rw [Nat.pow_succ, Nat.mul_comm]
  rw [unitsPerOne_eq hshift, hleft, hright]
  generalize he : x.coarsest - 23 = e
  rw [coarsest] at he
  rcases Int.le_total e 0 with hneg | hpos
  · obtain ⟨bits, hbits⟩ : ∃ bits, bits = shift + 2 - x.scale := ⟨_, rfl⟩
    have hdigits : 10 * (bits / 33) + (bits % 33 + 2) / 3 ≤ (-e).toNat := by omega
    rw [Int.toNat_of_nonpos hneg, Nat.pow_zero, Nat.mul_one]
    calc 2 ^ (shift + 2) < 2 ^ (x.scale + 1 + bits) := Nat.pow_lt_pow_right (by decide) (by omega)
      _ = 2 ^ (x.scale + 1) * 2 ^ bits := Nat.pow_add 2 _ _
      _ ≤ 2 ^ (x.scale + 1) * 10 ^ (-e).toNat :=
        Nat.mul_le_mul_left _ ((two_pow_le_ten_pow bits).trans
          (Nat.pow_le_pow_right (by decide) hdigits))
  · have hbits : shift + 2 + 10 * ((e.toNat + 2) / 3) < x.scale + 1 := by omega
    rw [Int.toNat_of_nonpos (Int.neg_nonpos_of_nonneg hpos), Nat.pow_zero, Nat.mul_one]
    calc 2 ^ (shift + 2) * 10 ^ e.toNat ≤ 2 ^ (shift + 2) * 2 ^ (10 * ((e.toNat + 2) / 3)) :=
          Nat.mul_le_mul_left _ (ten_pow_le_two_pow e.toNat)
      _ = 2 ^ (shift + 2 + 10 * ((e.toNat + 2) / 3)) := (Nat.pow_add 2 _ _).symm
      _ < 2 ^ (x.scale + 1) := Nat.pow_lt_pow_right (by decide) hbits

/-- The shortest decimal of a number other than zero lies in its interval, and its exponent is far
from the bounds of what is read as zero or as infinity. -/
theorem shortest_within (tie : Tie) (hunits : x.units ≠ 0) :
    (x.shortest tie).Within x ∧
      -400 ≤ (x.shortest tie).exponent ∧ (x.shortest tie).exponent ≤ 400 := by
  have hscale := x.scale_le
  have hlog := x.log2_units_le hunits
  have hlast : 23 < 24 := by decide
  obtain ⟨hwithin, hleast, hgreatest⟩ :=
    firstGrid_spec hlast (isSome_onGrid? tie (x.finest_grid hunits))
  rw [shortest, if_neg hunits]
  refine ⟨hwithin, ?_, ?_⟩
  · rw [coarsest] at hleast ⊢
    omega
  · rw [coarsest] at hgreatest ⊢
    omega

/-- The interval of a number other than zero does not reach down to zero. -/
theorem digits_ne_zero_of_within {d : Decimal} (hunits : x.units ≠ 0) (h : d.Within x) :
    d.digits ≠ 0 := by
  intro hzero
  have hsignificand : x.significand ≠ 0 := by
    intro hm
    rw [units, hm, Nat.zero_shiftLeft] at hunits
    contradiction
  have hpos : 0 < 10 ^ (-d.exponent).toNat * 2 ^ x.scale :=
    Nat.mul_pos (Nat.pow_pos (by decide)) (Nat.two_pow_pos _)
  have hstep := Nat.mul_le_mul_right (10 ^ (-d.exponent).toNat * 2 ^ x.scale)
    (Nat.one_le_iff_ne_zero.2 hsignificand)
  have hlow := (Interval.holds_iff.1 h).1
  rw [hzero, Nat.zero_mul, low_interval_mul] at hlow
  split at hlow <;> omega

/-- A decimal in the interval of a number is read as the number. -/
theorem ofDecimal_of_within {d : Decimal} (hfinite : x.isFinite = true) (hunits : x.units ≠ 0)
    (hrange : -400 ≤ d.exponent ∧ d.exponent ≤ 400) (h : d.Within x) :
    ofDecimal x.negative d.digits d.exponent = x := by
  have hdigits := digits_ne_zero_of_within hunits h
  unfold Decimal.Within at h
  rw [ofDecimal, if_neg (by omega), if_neg (by omega)]
  split
  · next hpos =>
    rw [Int.toNat_of_nonpos (Int.neg_nonpos_of_nonneg hpos)] at h
    exact nearest_of_holds hfinite Nat.one_pos h
  · next hneg =>
    have hexponent : d.exponent.toNat = 0 := by omega
    rw [hexponent, Nat.pow_zero, Nat.mul_one] at h
    exact nearest_of_holds hfinite (Nat.pow_pos (by decide)) h

/-- A whole number in the interval may be written out, with one more place behind the point. -/
theorem within_writtenOut {d : Decimal} (hpos : 0 ≤ d.exponent) (h : d.Within x) :
    Decimal.Within ⟨d.digits * 10 ^ d.exponent.toNat * 10, -1⟩ x := by
  have hten : (10 : Nat) ^ (-(-1 : Int)).toNat = 1 * 10 := rfl
  have hone : (10 : Nat) ^ (-1 : Int).toNat = 1 := rfl
  unfold Decimal.Within at h ⊢
  dsimp only
  rw [hten, hone, Nat.mul_one, Interval.holds_mul_right _ _ _ _ (by decide)]
  rwa [Int.toNat_of_nonpos (Int.neg_nonpos_of_nonneg hpos), Nat.pow_zero] at h

/-- Zero has no bits below the sign. -/
theorem ofMagnitudeBits_of_units (hunits : x.units = 0) : ofMagnitudeBits x.negative 0 = x := by
  have hsignificand : x.significand = 0 := by
    rw [units, Nat.shiftLeft_eq] at hunits
    exact (Nat.mul_eq_zero.1 hunits).resolve_right (Nat.two_pow_pos _).ne'
  have hlow : x.low = 0 := by
    have hscale := x.significand_cases
    rw [hsignificand] at hscale
    rw [low_eq_significand_add]
    omega
  rw [← hlow, ofMagnitudeBits_low]

theorem ofDecimal_zero_digits (negative : Bool) (exponent : Int) :
    ofDecimal negative 0 exponent = ofMagnitudeBits negative 0 := by
  simp [ofDecimal]

/-- Only zero has the digit zero, and it has no exponent. -/
theorem exponent_shortest_of_digits {tie : Tie} (hdigits : (x.shortest tie).digits = 0) :
    (x.shortest tie).exponent = 0 := by
  by_cases hunits : x.units = 0
  · rw [shortest, if_pos hunits]
  · exact absurd hdigits (digits_ne_zero_of_within hunits (shortest_within tie hunits).1)

/-- The shortest decimal is read as the number. -/
theorem ofDecimal_shortest (hfinite : x.isFinite = true) (tie : Tie) :
    ofDecimal x.negative (x.shortest tie).digits (x.shortest tie).exponent = x := by
  by_cases hunits : x.units = 0
  · rw [shortest, if_pos hunits, ofDecimal_zero_digits, ofMagnitudeBits_of_units hunits]
  · obtain ⟨hwithin, hrange⟩ := shortest_within tie hunits
    exact ofDecimal_of_within hfinite hunits hrange hwithin

/-- The shortest decimal is also read as the number where it is whole and is written out. -/
theorem ofDecimal_shortest_writtenOut (hfinite : x.isFinite = true) (tie : Tie)
    (hwhole : 0 ≤ (x.shortest tie).exponent) :
    ofDecimal x.negative ((x.shortest tie).digits * 10 ^ (x.shortest tie).exponent.toNat * 10)
      (-1) = x := by
  by_cases hunits : x.units = 0
  · rw [shortest, if_pos hunits, Nat.zero_mul, Nat.zero_mul, ofDecimal_zero_digits,
      ofMagnitudeBits_of_units hunits]
  · have hrange : (-400 : Int) ≤ -1 ∧ (-1 : Int) ≤ 400 := by decide
    have hwithin := within_writtenOut hwhole (shortest_within tie hunits).1
    exact ofDecimal_of_within hfinite hunits hrange hwithin

end Binary64

end TreePath
