import TreePath.Proofs.Json.Integer
import TreePath.Proofs.Json.Literal
import TreePath.Proofs.Number.Numeral
import TreePath.Proofs.Number.Shortest

/-!
The literal that a number is written as. It denotes the number: an integer is written with all its
digits, and a double with digits that read back, whatever the layout makes of them.
-/

namespace TreePath

theorem digitsValue_append_zeros (digits : List Char) (count : Nat) :
    digitsValue (digits ++ List.replicate count '0') = digitsValue digits * 10 ^ count := by
  rw [digitsValue_append, Nat.ofDigitChars_replicate_zero, Nat.mul_comm]

theorem digitsValue_zeros_append (digits : List Char) (count : Nat) :
    digitsValue (List.replicate count '0' ++ digits) = digitsValue digits := by
  have hzeros := digitsValue_append_zeros [] count
  rw [digitsValue_append, ← List.nil_append (List.replicate count '0'), hzeros, digitsValue,
    List.foldl_nil, Nat.zero_mul]
  rfl

namespace Json

namespace Literal

theorem isWhole_toDigits (n : Nat) : isWhole (Nat.toDigits 10 n) = true := by
  by_cases hn : n = 0
  · rw [hn]
    rfl
  · obtain ⟨c, rest, hdigits, hc⟩ := exists_toDigits_eq_cons hn
    simp [hdigits, isWhole, hc]

theorem decimal_zeros (count : Nat) : ∀ c ∈ List.replicate count '0', c.isDigit := by
  intro c hc
  rw [List.eq_of_mem_replicate hc]
  rfl

/-- The literal of a decimal that is written without an exponent. -/
def positional (negative : Bool) (digits : List Char) (exponent : Int) : Literal :=
  if 0 ≤ exponent then
    ⟨negative, digits ++ List.replicate exponent.toNat '0', ['0'], none⟩
  else
    let places := (-exponent).toNat
    if places < digits.length then
      ⟨negative, digits.take (digits.length - places), digits.drop (digits.length - places), none⟩
    else
      ⟨negative, ['0'], List.replicate (places - digits.length) '0' ++ digits, none⟩

/-- The literal of a decimal with one digit in front of the point. -/
def scientific (negative : Bool) (digits : List Char) (lead : Int) : Literal :=
  ⟨negative, digits.take 1, digits.tail, some lead⟩

variable {negative : Bool} {digits : List Char} {exponent lead : Int}

theorem fractionChars_of_ne_nil {fraction : List Char} (h : fraction ≠ []) :
    fractionChars fraction = '.' :: fraction := by
  cases fraction with
  | nil => contradiction
  | cons c digits => rfl

theorem drop_ne_nil (hpos : ¬ 0 ≤ exponent) (hplaces : (-exponent).toNat < digits.length) :
    digits.drop (digits.length - (-exponent).toNat) ≠ [] := by
  rw [ne_eq, List.drop_eq_nil_iff]
  omega

theorem chars_positional (hdigits : digits ≠ []) : (positional negative digits exponent).chars =
    (if negative then ['-'] else []) ++ Binary64.positionalText true digits exponent := by
  unfold positional Binary64.positionalText
  split
  · simp [chars, fractionChars, exponentChars]
  · next hpos =>
    dsimp only
    split
    · next hplaces =>
      simp [chars, fractionChars_of_ne_nil (drop_ne_nil hpos hplaces), exponentChars]
    · simp [chars, fractionChars_of_ne_nil, hdigits, exponentChars]

theorem chars_scientific : (scientific negative digits lead).chars =
    (if negative then ['-'] else []) ++ Binary64.scientificText digits lead := by
  unfold scientific Binary64.scientificText
  cases digits.tail <;> simp [chars, fractionChars, exponentChars, Binary64.digitsOf]

/-- A decimal in positional form always has a fraction. -/
theorem fraction_positional_ne_nil (hdigits : digits ≠ []) :
    (positional negative digits exponent).fraction ≠ [] := by
  unfold positional
  split
  · exact List.cons_ne_nil _ _
  · next hpos =>
    dsimp only
    split
    · next hplaces => exact drop_ne_nil hpos hplaces
    · exact List.append_ne_nil_of_right_ne_nil _ hdigits

theorem toBinary64_scientific (hdigits : digits ≠ [])
    (hlead : lead = exponent + digits.length - 1) :
    (scientific negative digits lead).toBinary64 =
      .ofDecimal negative (digitsValue digits) exponent := by
  have hlength := List.length_pos_iff.2 hdigits
  have hsplit : digits.take 1 ++ digits.tail = digits := by
    rw [← List.drop_one, List.take_append_drop]
  have hexponent : (some lead).getD 0 - (digits.tail.length : Int) = exponent := by
    rw [List.length_tail, Option.getD_some]
    omega
  simp only [toBinary64, scientific, hsplit, hexponent]

theorem toBinary64_positional : (positional negative digits exponent).toBinary64 =
    if 0 ≤ exponent then .ofDecimal negative (digitsValue digits * 10 ^ exponent.toNat * 10) (-1)
    else .ofDecimal negative (digitsValue digits) exponent := by
  unfold positional toBinary64
  split
  · have hplace := digitsValue_append_zeros (digits ++ List.replicate exponent.toNat '0') 1
    rw [digitsValue_append_zeros digits, Nat.pow_one] at hplace
    exact congrArg (Binary64.ofDecimal negative · (-1)) hplace
  · next hpos =>
    dsimp only
    split
    · next hplaces =>
      have hexponent : (none : Option Int).getD 0 -
          ((digits.drop (digits.length - (-exponent).toNat)).length : Int) = exponent := by
        rw [List.length_drop, Option.getD_none]
        omega
      rw [List.take_append_drop, hexponent]
    · next hplaces =>
      have hexponent : (none : Option Int).getD 0 -
          ((List.replicate ((-exponent).toNat - digits.length) '0' ++ digits).length : Int) =
          exponent := by
        rw [List.length_append, List.length_replicate, Option.getD_none]
        omega
      have hzeros := digitsValue_zeros_append digits ((-exponent).toNat - digits.length + 1)
      rw [List.replicate_succ] at hzeros
      rw [hexponent]
      exact congrArg (Binary64.ofDecimal negative · exponent) hzeros

theorem wellSpelled_scientific (hdigits : digits ≠ []) (hdecimal : ∀ c ∈ digits, c.isDigit) :
    (scientific negative digits lead).WellSpelled := by
  obtain ⟨c, rest, rfl⟩ := List.exists_cons_of_ne_nil hdigits
  obtain ⟨hc, hrest⟩ := List.forall_mem_cons.1 hdecimal
  exact ⟨by simp [scientific, isWhole], by simpa [scientific] using hc, hrest⟩

/-- A first digit other than zero stays in front, and a whole zero is written out as it is. -/
theorem wellSpelled_positional (hdecimal : ∀ c ∈ digits, c.isDigit)
    (hfirst : (∃ c rest, digits = c :: rest ∧ c ≠ '0') ∨ (digits = ['0'] ∧ exponent = 0)) :
    (positional negative digits exponent).WellSpelled := by
  unfold positional
  split
  · refine ⟨?_, List.forall_mem_append.2 ⟨hdecimal, decimal_zeros _⟩, by simp⟩
    rcases hfirst with ⟨c, rest, rfl, hc⟩ | ⟨rfl, rfl⟩
    · simp [isWhole, hc]
    · rfl
  · next hpos =>
    obtain ⟨c, rest, hdigits, hc⟩ := hfirst.resolve_right fun h => hpos h.2.ge
    dsimp only
    split
    · next hplaces =>
      refine ⟨?_, fun d hd => hdecimal d (List.mem_of_mem_take hd),
        fun d hd => hdecimal d (List.mem_of_mem_drop hd)⟩
      obtain ⟨k, hk⟩ : ∃ k, digits.length - (-exponent).toNat = k + 1 :=
        Nat.exists_eq_succ_of_ne_zero (by omega)
      have htake : digits.take (digits.length - (-exponent).toNat) = c :: rest.take k := by
        rw [hk, hdigits, List.take_succ_cons]
      simp [htake, isWhole, hc]
    · exact ⟨rfl, by simp, List.forall_mem_append.2 ⟨decimal_zeros _, hdecimal⟩⟩

end Literal

namespace Number

open Literal

def lead (d : Decimal) : Int := d.exponent + (Nat.toDigits 10 d.digits).length - 1

def literal : Number → Literal
  | .integer n _ => ⟨n < 0, Nat.toDigits 10 n.natAbs, [], none⟩
  | .float x _ =>
    let decimal := x.shortest .toEven
    let digits := Nat.toDigits 10 decimal.digits
    if -5 ≤ lead decimal ∧ lead decimal ≤ 15 then positional x.negative digits decimal.exponent
    else scientific x.negative digits (lead decimal)

theorem magnitudeText_json (x : Binary64) : x.magnitudeText .json =
    if -5 ≤ lead (x.shortest .toEven) ∧ lead (x.shortest .toEven) ≤ 15 then
      Binary64.positionalText true (Nat.toDigits 10 (x.shortest .toEven).digits)
        (x.shortest .toEven).exponent
    else Binary64.scientificText (Nat.toDigits 10 (x.shortest .toEven).digits)
      (lead (x.shortest .toEven)) := rfl

theorem chars_literal_float {x : Binary64} (finite : x.isFinite = true) :
    (float x finite).literal.chars =
      (if x.negative then ['-'] else []) ++ x.magnitudeText .json := by
  have hdigits : Nat.toDigits 10 (x.shortest .toEven).digits ≠ [] := Nat.toDigits_ne_nil
  rw [magnitudeText_json]
  simp only [literal]
  split
  · exact chars_positional hdigits
  · exact chars_scientific

/-- The text of a number is the spelling of its literal. -/
theorem text_eq (n : Number) : n.text = n.literal.chars := by
  cases n with
  | integer n fits =>
    simp only [text, toList_toString, literal, Literal.chars, fractionChars, exponentChars,
      List.append_nil, decide_eq_true_eq]
  | float x finite =>
    have hexponent : x.exponentField ≠ 2047 := by
      simp only [Binary64.isFinite, decide_eq_true_eq] at finite
      omega
    rw [chars_literal_float]
    simp only [text, Binary64.text, Binary64.isNaN, Binary64.isInfinite, hexponent, decide_false,
      Bool.false_and, Bool.false_eq_true, if_false, String.toList_ofList]
    cases x.negative <;> rfl

theorem wellSpelled_literal (n : Number) : n.literal.WellSpelled := by
  cases n with
  | integer n fits => exact ⟨isWhole_toDigits _, decimal_toDigits _, by simp [literal]⟩
  | float x finite =>
    have hdecimal := decimal_toDigits (x.shortest .toEven).digits
    simp only [literal]
    split
    · apply wellSpelled_positional hdecimal
      by_cases hzero : (x.shortest .toEven).digits = 0
      · right
        rw [hzero, Binary64.exponent_shortest_of_digits hzero]
        exact ⟨rfl, rfl⟩
      · exact .inl (exists_toDigits_eq_cons hzero)
    · exact wellSpelled_scientific (Nat.toDigits_ne_nil) hdecimal

theorem toBinary64_literal {x : Binary64} (finite : x.isFinite = true) :
    (float x finite).literal.toBinary64 = x := by
  have hdigits : Nat.toDigits 10 (x.shortest .toEven).digits ≠ [] := Nat.toDigits_ne_nil
  simp only [literal]
  split
  · rw [toBinary64_positional, digitsValue_toDigits]
    split
    · next hwhole => exact Binary64.ofDecimal_shortest_writtenOut finite .toEven hwhole
    · exact Binary64.ofDecimal_shortest finite .toEven
  · have hlead : lead (x.shortest .toEven) = (x.shortest .toEven).exponent +
        (Nat.toDigits 10 (x.shortest .toEven).digits).length - 1 := rfl
    rw [toBinary64_scientific hdigits hlead, digitsValue_toDigits]
    exact Binary64.ofDecimal_shortest finite .toEven

theorem isInteger_literal {x : Binary64} (finite : x.isFinite = true) :
    (float x finite).literal.isInteger = false := by
  have hdigits : Nat.toDigits 10 (x.shortest .toEven).digits ≠ [] := Nat.toDigits_ne_nil
  simp only [literal]
  split
  · simp [isInteger, fraction_positional_ne_nil hdigits]
  · simp [isInteger, scientific]

/-- A number is what its literal denotes. -/
theorem number?_literal (n : Number) : n.literal.number? = some n := by
  cases n with
  | integer n fits =>
    have hint : (integer n fits).literal.toInt = n := by
      simp only [literal, toInt, digitsValue_toDigits, decide_eq_true_eq]
      split <;> omega
    have hsign : 0 ≤ n ∨ ¬ n = 0 := by omega
    simp only [number?, hint, dif_pos fits]
    rw [if_pos]
    simpa [isInteger, literal] using hsign
  | float x finite =>
    have hdouble : ofBinary64? (float x finite).literal.toBinary64 = some (.float x finite) := by
      rw [toBinary64_literal, ofBinary64?, dif_pos finite]
    simp only [number?, isInteger_literal]
    split <;> simpa using hdouble

end Number

end Json

end TreePath
