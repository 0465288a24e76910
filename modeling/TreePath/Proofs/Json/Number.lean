import TreePath.Json.Number
import TreePath.Proofs.Number.Value
import TreePath.Proofs.Number.Whole

/-!
The numbers of values, as documents hold them and as signed words.
-/

namespace TreePath

/-!
Numbers that a document takes over from a value keep their word and their double: what a document
rounds has no signed word before or after, and its double is the one it is rounded to.
-/

namespace Json

namespace Number

/-- An integer above the signed words stays without a word when it is rounded: no double between
the two ranges is a signed word. -/
theorem toInt64?_ofInt_of_unsigned {n : Int} (hn : 2 ^ 63 ≤ n) :
    (Binary64.ofInt n).toInt64? = none := by
  rw [Option.eq_none_iff_forall_ne_some]
  intro i hi
  have hrange := ((Binary64.toInt64?_ofInt_eq_some_iff (.inr hn)).1 hi).1
  omega

/-- An integer of a text is far from being too large for a double, so that its conversion needs no
default. -/
theorem convert_integer (default : Binary64) {n : Int}
    (fits : -0x8000000000000000 ≤ n ∧ n < 0x10000000000000000) :
    (integer n fits).convert default =
      match int64? n with
      | some i => .integer i
      | none => .float (.ofInt n) := by
  have hdouble : (integer n fits).double? = some (.ofInt n) :=
    if_pos (Binary64.isNearest_ofInt (by omega)).finite
  cases h : int64? n with
  | some i => simp only [convert, word?, h]
  | none => simp only [convert, word?, h, hdouble, Option.getD_some]

theorem convert_float (default : Binary64) {x : Binary64} (finite : x.isFinite = true) :
    (float x finite).convert default = .float x := by
  rw [convert, word?, double?, toBinary64, if_pos finite, Option.getD_some]

theorem convert_eq_toDocument (default : Binary64) (m : Number) :
    m.convert default = m.toDocument := by
  rw [toDocument]
  cases m with
  | integer n fits => rw [convert_integer, convert_integer]
  | float x finite => rw [convert_float, convert_float]

/-- A document holds an integer as it is where a signed word does, and rounds it elsewhere. -/
theorem toDocument_integer_cases {n : Int}
    (fits : -0x8000000000000000 ≤ n ∧ n < 0x10000000000000000) :
    (∃ i, int64? n = some i ∧ (integer n fits).toDocument = .integer i) ∨
    (2 ^ 63 ≤ n ∧ int64? n = none ∧ (integer n fits).toDocument = .float (.ofInt n)) := by
  rw [toDocument, convert_integer]
  cases h : int64? n with
  | some i => exact .inl ⟨i, rfl, rfl⟩
  | none =>
    have hrange : ¬ (-2 ^ 63 ≤ n ∧ n ≤ 2 ^ 63 - 1) := by
      intro hfits
      rw [int64?_eq_ite, if_pos hfits] at h
      contradiction
    exact .inr ⟨by omega, rfl, rfl⟩

@[simp] theorem toDocument_float {x : Binary64} (finite : x.isFinite = true) :
    (float x finite).toDocument = .float x :=
  convert_float .nan finite

theorem toInt64?_toDocument (x : Number) : x.toDocument.toInt64? = x.toInt64? := by
  cases x with
  | integer n fits =>
    rcases toDocument_integer_cases fits with ⟨i, hi, h⟩ | ⟨hn, hnone, h⟩
    · rw [h]
      exact hi.symm
    · rw [h]
      exact (toInt64?_ofInt_of_unsigned hn).trans hnone.symm
  | float x finite =>
    rw [toDocument_float]
    rfl

theorem toBinary64_toDocument (x : Number) : x.toDocument.toBinary64 = x.toBinary64 := by
  cases x with
  | integer n fits =>
    rcases toDocument_integer_cases fits with ⟨i, hi, h⟩ | ⟨-, -, h⟩
    · rw [h]
      exact congrArg Binary64.ofInt (int64?_eq_some_iff.1 hi)
    · rw [h]
      rfl
  | float x finite =>
    rw [toDocument_float]
    rfl

end Number

end Json

/-!
Numbers as signed words, by their values. Both kinds of tree read a double as a word exactly where
the value of the double is an integer in range, and a number that is read as a word has the double
nearest to it.
-/

namespace Binary64

/-- A double is read as an integer exactly where it is finite, its value is the integer, and a word
holds that. -/
theorem map_toInt64?_eq_some_iff (x : Binary64) (n : ℤ) :
    x.toInt64?.map Int64.toInt = some n ↔
      x.isFinite = true ∧ x.value = n ∧ -2 ^ 63 ≤ n ∧ n ≤ 2 ^ 63 - 1 := by
  simp only [Option.map_eq_some_iff, toInt64?_eq_some_iff, value_eq_intCast_iff]
  constructor
  · rintro ⟨i, ⟨hfinite, hvalue⟩, rfl⟩
    have hleast := Int64.le_toInt i
    have hgreatest := Int64.toInt_lt i
    exact ⟨hfinite, hvalue, hleast, by omega⟩
  · rintro ⟨hfinite, hvalue, hleast, hgreatest⟩
    have hword := Int64.toInt_ofInt_of_le hleast (by omega)
    exact ⟨Int64.ofInt n, ⟨hfinite, by rwa [hword]⟩, hword⟩

/-- A double is read as nothing exactly where it is not finite, has a fractional part, or is out of the
range of words. -/
theorem toInt64?_eq_none_iff (x : Binary64) :
    x.toInt64? = none ↔ x.isNaN = true ∨ x.isInfinite = true ∨ (∀ n : ℤ, x.value ≠ n) ∨
      x.value < -2 ^ 63 ∨ 2 ^ 63 - 1 < x.value := by
  have hbelow (n : ℤ) : (n : ℚ) < -2 ^ 63 ↔ n < -2 ^ 63 := by
    rw [← Int.cast_lt (R := ℚ), Int.cast_neg, Int.cast_pow, Int.cast_ofNat]
  have habove (n : ℤ) : 2 ^ 63 - 1 < (n : ℚ) ↔ 2 ^ 63 - 1 < n := by
    rw [← Int.cast_lt (R := ℚ), Int.cast_sub, Int.cast_pow, Int.cast_ofNat, Int.cast_one]
  rw [← Option.map_eq_none_iff (f := Int64.toInt), Option.eq_none_iff_forall_ne_some, ← or_assoc,
    ← isFinite_eq_false_iff]
  simp only [ne_eq, map_toInt64?_eq_some_iff]
  constructor
  · intro h
    by_contra hnone
    simp only [not_or, Bool.not_eq_false, not_forall, not_not] at hnone
    obtain ⟨hfinite, ⟨n, hvalue⟩, hleast, hgreatest⟩ := hnone
    rw [hvalue, hbelow] at hleast
    rw [hvalue, habove] at hgreatest
    exact h n ⟨hfinite, hvalue, by omega, by omega⟩
  · rintro (h | h | h | h) n ⟨hfinite, hvalue, hleast, hgreatest⟩
    · rw [hfinite] at h
      contradiction
    · exact h n hvalue
    · rw [hvalue, hbelow] at h
      omega
    · rw [hvalue, habove] at h
      omega

/-- What is read of a double is the integer that its value is, where a word holds that integer, and
nothing of any other double. -/
def ReadAs (x : Binary64) (word : Option Int64) : Prop :=
  (∀ n : ℤ, word.map Int64.toInt = some n ↔
    x.isFinite = true ∧ x.value = n ∧ -2 ^ 63 ≤ n ∧ n ≤ 2 ^ 63 - 1) ∧
  (word = none ↔ x.isNaN = true ∨ x.isInfinite = true ∨ (∀ n : ℤ, x.value ≠ n) ∨
    x.value < -2 ^ 63 ∨ 2 ^ 63 - 1 < x.value)

theorem readAs_toInt64? (x : Binary64) : x.ReadAs x.toInt64? :=
  ⟨x.map_toInt64?_eq_some_iff, x.toInt64?_eq_none_iff⟩

/-- A number that equals `q` is the nearest to it. -/
theorem isNearest_of_value_eq {x : Binary64} {q : ℚ} (hfinite : x.isFinite = true)
    (hvalue : x.value = q) : IsNearest x q := by
  subst hvalue
  refine ⟨hfinite, ?_, ?_⟩
  · intro y _
    rw [sub_self, abs_zero]
    exact abs_nonneg _
  · intro y _ htie
    rw [sub_self, abs_zero, abs_eq_zero, sub_eq_zero] at htie
    exact .inl htie

end Binary64

/-- The double of a number that is read as a word is the nearest one to the word. -/
theorem Number.isNearest_toBinary64 {x : Number} {i : Int64} (h : x.toInt64? = some i) :
    x.toBinary64.IsNearest i.toInt := by
  cases x with
  | integer n =>
    obtain rfl := Option.some.inj h
    have hleast := Int64.le_toInt n
    have hgreatest := Int64.toInt_lt n
    exact Binary64.isNearest_ofInt (by omega)
  | float x =>
    obtain ⟨hfinite, hvalue⟩ := Binary64.toInt64?_eq_some_iff.1 h
    exact Binary64.isNearest_of_value_eq hfinite ((x.value_eq_intCast_iff i.toInt).2 hvalue)

/-- A double is read as a signed word exactly where its value is an integer in range, in a document and
in a text alike; a text's integer beyond the words is read as none. The double of a number that is
read as a word is the nearest one to the word. -/
theorem toInt64?_iff_value :
    (∀ x : Binary64, x.ReadAs (Number.float x).toInt64?) ∧
    (∀ (x : Binary64) finite, x.ReadAs (Json.Number.float x finite).toInt64?) ∧
    (∀ n fits, Int64.maxValue.toInt < n → (Json.Number.integer n fits).toInt64? = none) ∧
    ∀ (x : Number) i, x.toInt64? = some i → x.toBinary64.IsNearest i.toInt := by
  refine ⟨?_, ?_, ?_, ?_⟩
  · intro x
    exact x.readAs_toInt64?
  · intro x finite
    exact x.readAs_toInt64?
  · intro n fits hn
    have hmax := Int64.toInt_maxValue
    rw [Json.Number.toInt64?, int64?_eq_ite, if_neg (by omega)]
  · intro x i hi
    exact Number.isNearest_toBinary64 hi

/-- The least integer beyond the words is read as none; halfway between two doubles a word has the
even one of them. -/
theorem toInt64?_iff_value_halfway :
    ((Json.Number.integer 9223372036854775808 (by decide)).toInt64? = none ∧
      Int64.maxValue.toInt < 9223372036854775808) ∧
    (Number.integer 9007199254740993).toBinary64 = ⟨0x4340000000000000⟩ ∧
    (Number.integer 9007199254740993).toBinary64.IsNearest (9007199254740993 : Int64).toInt := by
  obtain ⟨-, -, hbeyond, hnearest⟩ := toInt64?_iff_value
  have hmax : Int64.maxValue.toInt < 9223372036854775808 := by decide
  exact ⟨⟨hbeyond _ _ hmax, hmax⟩, by decide +kernel, hnearest _ _ rfl⟩

end TreePath
