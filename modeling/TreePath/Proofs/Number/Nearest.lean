import TreePath.Number.Binary64
import TreePath.Proofs.Number.Rounding

/-!
A double is the nearest to every quotient in its interval. The ends of the interval belong to it
where the significand is even, as ties do, and below a power of two the lower end is half as far.
-/

namespace TreePath

namespace Binary64

/-- A whole number is at most one half away from a quotient, and even if it is as far as that. -/
structure RoundsTo (num den k : Nat) : Prop where
  low : 2 * (k * den) ≤ 2 * num + den
  high : 2 * num ≤ 2 * (k * den) + den
  tie : k % 2 = 0 ∨ (2 * (k * den) < 2 * num + den ∧ 2 * num < 2 * (k * den) + den)

theorem RoundsTo.roundHalfEven_eq {num den k : Nat} (hden : 0 < den) (h : RoundsTo num den k) :
    roundHalfEven num den = k := by
  obtain ⟨hlow, hhigh, htie⟩ := h
  have hdiv := Nat.div_add_mod num den
  have hmod := Nat.mod_lt num hden
  rw [Nat.mul_comm den] at hdiv
  have hle : 2 * (num / den) < 2 * k + 2 := by
    apply Nat.lt_of_mul_lt_mul_right (a := den)
    calc 2 * (num / den) * den = 2 * (num / den * den) := by ring
      _ < 2 * (k * den) + 2 * den := by omega
      _ = (2 * k + 2) * den := by ring
  have hge : 2 * k < 2 * (num / den) + 3 := by
    apply Nat.lt_of_mul_lt_mul_right (a := den)
    calc 2 * k * den = 2 * (k * den) := by ring
      _ < 2 * (num / den * den) + 3 * den := by omega
      _ = (2 * (num / den) + 3) * den := by ring
  obtain hq | hq : num / den = k ∨ num / den + 1 = k := by omega
  · rw [hq] at hdiv
    simp only [roundHalfEven, hq, Bool.or_eq_true, Bool.and_eq_true, decide_eq_true_eq]
    rw [if_neg]
    rcases htie with heven | hstrict <;> omega
  · have hsucc : k * den = num / den * den + den := by rw [← hq, Nat.succ_mul]
    simp only [roundHalfEven, Bool.or_eq_true, Bool.and_eq_true, decide_eq_true_eq]
    rw [if_pos, hq]
    rcases htie with heven | hstrict <;> omega

/-- The place of the leading bit of a quotient, from two powers of two around it; small quotients
are all counted at the first place. -/
theorem log2_sub_eq {num den s : Nat} (hden : 0 < den) (hlow : s = 0 ∨ 2 ^ 52 * (den * 2 ^ s) ≤ num)
    (hhigh : num < 2 ^ 53 * (den * 2 ^ s)) : Nat.log2 (num / den) - 52 = s := by
  have hlt : num / den < 2 ^ (53 + s) := by
    rw [Nat.div_lt_iff_lt_mul hden, Nat.pow_add]
    calc num < 2 ^ 53 * (den * 2 ^ s) := hhigh
      _ = 2 ^ 53 * 2 ^ s * den := by ring
  have hlog : Nat.log2 (num / den) < 53 + s := by
    by_cases hzero : num / den = 0
    · rw [hzero, Nat.log2_zero]
      omega
    · exact (Nat.log2_lt hzero).2 hlt
  rcases hlow with rfl | hlow
  · omega
  · have hle : 2 ^ (52 + s) ≤ num / den := by
      rw [Nat.le_div_iff_mul_le hden, Nat.pow_add]
      calc 2 ^ 52 * 2 ^ s * den = 2 ^ 52 * (den * 2 ^ s) := by ring
        _ ≤ num := hlow
    have hne : num / den ≠ 0 := by
      have hpos := Nat.two_pow_pos (52 + s)
      omega
    have hge := (Nat.le_log2 hne).2 hle
    omega

/-- The bits nearest to a quotient, from the place of its leading bit and its rounded significand. -/
theorem nearestBits_of_roundsTo {num den m s : Nat} (hden : 0 < den)
    (hleast : s = 0 ∨ 2 ^ 52 * (den * 2 ^ s) ≤ num * unitsPerOne)
    (hgreatest : num * unitsPerOne < 2 ^ 53 * (den * 2 ^ s))
    (hround : RoundsTo (num * unitsPerOne) (den * 2 ^ s) m) :
    nearestBits num den = m + s * 2 ^ 52 := by
  have hstep : 0 < den * 2 ^ s := Nat.mul_pos hden (Nat.two_pow_pos s)
  rw [nearestBits_eq, log2_sub_eq hden hleast hgreatest, Nat.shiftLeft_eq, Nat.shiftLeft_eq,
    hround.roundHalfEven_eq hstep]

section Low

variable (x : Binary64)

theorem exponentField_lt : x.exponentField < 2 ^ 11 := by
  unfold exponentField
  exact Nat.mod_lt _ (by decide)

theorem fractionField_lt : x.fractionField < 2 ^ 52 := by
  unfold fractionField
  exact Nat.mod_lt _ (by decide)

theorem low_eq : x.low = x.exponentField * 2 ^ 52 + x.fractionField := by
  unfold low exponentField fractionField
  rw [Nat.shiftRight_eq_div_pow]
  omega

/-- The leading one of the significand stands for the first step of the exponent. -/
theorem low_eq_significand_add : x.low = x.significand + x.scale * 2 ^ 52 := by
  rw [low_eq]
  unfold significand scale
  split <;> omega

theorem ofMagnitudeBits_low : ofMagnitudeBits x.negative x.low = x := by
  obtain ⟨bits⟩ := x
  have hlt := UInt64.toNat_lt bits
  simp only [ofMagnitudeBits, Binary64.negative, low, mk.injEq, decide_eq_true_eq]
  rw [← UInt64.toNat_inj, UInt64.toNat_ofNat']
  split <;> omega

variable {x}

theorem low_lt_infinityBits (hfinite : x.isFinite = true) : x.low < infinityBits := by
  have hfraction := x.fractionField_lt
  simp only [isFinite, decide_eq_true_eq] at hfinite
  rw [low_eq, infinityBits, Nat.shiftLeft_eq]
  omega

end Low

theorem Interval.holds_iff {i : Interval} {factor unit point : Nat} :
    i.holds factor unit point = true ↔
      i.low * factor ≤ point * unit ∧ point * unit ≤ i.high * factor ∧
        (i.closed = true ∨ (i.low * factor < point * unit ∧ point * unit < i.high * factor)) := by
  unfold holds
  cases i.closed with
  | true => simp
  | false =>
    simp only [Bool.false_eq_true, if_false, Bool.and_eq_true, decide_eq_true_eq, false_or]
    exact ⟨fun h => ⟨h.1.le, h.2.le, h⟩, fun h => h.2.2⟩

section Nearest

variable (x : Binary64)

/-- Whether the number is a power of two with a lower binade, so that the step below it is half the
step above it. -/
def IsBoundary : Prop := x.fractionField = 0 ∧ 1 < x.exponentField

instance : Decidable x.IsBoundary := inferInstanceAs (Decidable (_ ∧ _))

/-- Away from a boundary the significand is above the least one of its binade, if it has a leading
one at all that is not at the first place. -/
theorem significand_cases :
    (¬ x.IsBoundary ∧ x.significand < 2 ^ 53 ∧ (x.scale = 0 ∨ 2 ^ 52 < x.significand)) ∨
    (x.IsBoundary ∧ x.significand = 2 ^ 52 ∧ x.scale ≠ 0) := by
  have hfraction := x.fractionField_lt
  unfold significand scale IsBoundary
  split <;> omega

variable {x} {num den : Nat}

theorem low_interval_mul : x.interval.low * den =
    4 * (x.significand * (den * 2 ^ x.scale)) -
      if x.IsBoundary then den * 2 ^ x.scale else 2 * (den * 2 ^ x.scale) := by
  have hunits : 4 * x.units * den = 4 * (x.significand * (den * 2 ^ x.scale)) := by
    rw [units, Nat.shiftLeft_eq]
    ring
  have hstep : (if x.IsBoundary then 1 <<< x.scale else 2 <<< x.scale) * den =
      if x.IsBoundary then den * 2 ^ x.scale else 2 * (den * 2 ^ x.scale) := by
    split <;> rw [Nat.shiftLeft_eq] <;> ring
  rw [← hunits, ← hstep, ← Nat.sub_mul]
  rfl

theorem high_interval_mul : x.interval.high * den =
    4 * (x.significand * (den * 2 ^ x.scale)) + 2 * (den * 2 ^ x.scale) := by
  simp only [interval, units, Nat.shiftLeft_eq]
  ring

/-- With equal steps on both sides, a quotient in the interval is rounded to the significand. -/
theorem roundsTo_of_holds (hregular : ¬ x.IsBoundary) (hden : 0 < den)
    (hholds : x.interval.holds den (4 * unitsPerOne) num = true) :
    RoundsTo (num * unitsPerOne) (den * 2 ^ x.scale) x.significand := by
  have hpoint : num * (4 * unitsPerOne) = 4 * (num * unitsPerOne) := by ring
  have hstep : 0 < den * 2 ^ x.scale := Nat.mul_pos hden (Nat.two_pow_pos _)
  have hclosed : x.interval.closed = true ↔ x.significand % 2 = 0 := by simp [interval]
  rw [Interval.holds_iff, hpoint, high_interval_mul, low_interval_mul, if_neg hregular,
    hclosed] at hholds
  obtain ⟨hlow, hhigh, htie⟩ := hholds
  refine ⟨by omega, by omega, ?_⟩
  rcases htie with heven | hstrict
  · exact .inl heven
  · exact .inr ⟨by omega, by omega⟩

/-- At a power of two, a quotient in the interval lies within half a step above it or within half
of the smaller step below it. -/
theorem bounds_of_holds_boundary (hboundary : x.IsBoundary)
    (hholds : x.interval.holds den (4 * unitsPerOne) num = true) :
    4 * (x.significand * (den * 2 ^ x.scale)) ≤ 4 * (num * unitsPerOne) + den * 2 ^ x.scale ∧
    2 * (num * unitsPerOne) ≤ 2 * (x.significand * (den * 2 ^ x.scale)) + den * 2 ^ x.scale := by
  have hpoint : num * (4 * unitsPerOne) = 4 * (num * unitsPerOne) := by ring
  rw [Interval.holds_iff, hpoint, high_interval_mul, low_interval_mul, if_pos hboundary] at hholds
  exact ⟨by omega, by omega⟩

theorem nearestBits_of_holds (hden : 0 < den)
    (hholds : x.interval.holds den (4 * unitsPerOne) num = true) :
    nearestBits num den = x.low := by
  have hstep : ∀ s, 0 < den * 2 ^ s := fun s => Nat.mul_pos hden (Nat.two_pow_pos s)
  rw [low_eq_significand_add]
  rcases x.significand_cases with ⟨hregular, hmax, hmin⟩ | ⟨hboundary, hm, hscale⟩
  · have hround := roundsTo_of_holds hregular hden hholds
    have hlow := hround.low
    have hhigh := hround.high
    have hmax := Nat.mul_le_mul_right (den * 2 ^ x.scale) (Nat.le_sub_one_of_lt hmax)
    have hpos := hstep x.scale
    refine nearestBits_of_roundsTo hden (hmin.imp_right fun hmin => ?_) (by omega) hround
    have hmin := Nat.mul_le_mul_right (den * 2 ^ x.scale) hmin
    omega
  · obtain ⟨s, hs⟩ := Nat.exists_eq_succ_of_ne_zero hscale
    obtain ⟨hlow, hhigh⟩ := bounds_of_holds_boundary hboundary hholds
    rw [hm] at hlow hhigh ⊢
    by_cases hleast : 2 ^ 52 * (den * 2 ^ x.scale) ≤ num * unitsPerOne
    · have hpos := hstep x.scale
      exact nearestBits_of_roundsTo hden (.inr hleast) (by omega) ⟨by omega, by omega, .inl rfl⟩
    · -- The quotient is below the power of two and is rounded up to it, which carries.
      have hhalf : den * 2 ^ x.scale = 2 * (den * 2 ^ s) := by rw [hs, Nat.pow_succ]; ring
      have hpos := hstep s
      rw [hhalf] at hlow hhigh hleast
      have hbits : nearestBits num den = 2 ^ 53 + s * 2 ^ 52 :=
        nearestBits_of_roundsTo hden (.inr (by omega)) (by omega) ⟨by omega, by omega, .inl rfl⟩
      rw [hbits, hs]
      omega

/-- A finite number is the nearest to every quotient in its interval. -/
theorem nearest_of_holds (hfinite : x.isFinite = true) (hden : 0 < den)
    (hholds : x.interval.holds den (4 * unitsPerOne) num = true) :
    nearest x.negative num den = x := by
  rw [nearest, nearestBits_of_holds hden hholds, Nat.min_eq_left (low_lt_infinityBits hfinite).le,
    ofMagnitudeBits_low]

end Nearest

end Binary64

end TreePath
