import TreePath.Json.Reader
import TreePath.Proofs.Lists

/-!
Literals as they are spelled. A literal whose digits are digits, with no superfluous zero in front,
is the literal that is read from its characters.
-/

namespace TreePath

namespace Json

namespace Literal

/-- The characters of an exponent, with its sign written out. -/
def exponentChars : Option Int → List Char
  | none => []
  | some e => 'e' :: (if e < 0 then '-' else '+') :: Nat.toDigits 10 e.natAbs

def fractionChars : List Char → List Char
  | [] => []
  | digits => '.' :: digits

def chars (l : Literal) : List Char :=
  (if l.negative then ['-'] else []) ++ (l.whole ++ (fractionChars l.fraction ++
    exponentChars l.exponent))

/-- The digits of a literal are digits, and it has some before the point. -/
structure WellSpelled (l : Literal) : Prop where
  whole : isWhole l.whole = true
  wholeDecimal : ∀ c ∈ l.whole, c.isDigit
  fractionDecimal : ∀ c ∈ l.fraction, c.isDigit

theorem exponent?_exponentChars (exponent : Option Int) :
    exponent? (exponentChars exponent) = some exponent := by
  cases exponent with
  | none => rfl
  | some e =>
    have hdigits : Nat.toDigits 10 e.natAbs ≠ [] ∧
        (Nat.toDigits 10 e.natAbs).all Char.isDigit = true :=
      ⟨Nat.toDigits_ne_nil, List.all_eq_true.2 fun c hc =>
        Nat.isDigit_of_mem_toDigits (by decide) (by decide) hc⟩
    by_cases hneg : e < 0
    · have hvalue : -(e.natAbs : Int) = e := by omega
      simp only [exponentChars, if_pos hneg, exponent?, true_or, if_true, if_pos hdigits,
        digitsValue_toDigits, hvalue]
    · have hvalue : (e.natAbs : Int) = e := by omega
      simp only [exponentChars, if_neg hneg, exponent?, true_or, if_true, if_pos hdigits,
        digitsValue_toDigits, Bool.false_eq_true, if_false, hvalue]

theorem head?_exponentChars (exponent : Option Int) :
    (exponentChars exponent).head?.any Char.isDigit = false := by
  cases exponent <;> rfl

/-- What follows a whole part begins with no digit. -/
theorem head?_fractionChars_append (fraction : List Char) (exponent : Option Int) :
    (fractionChars fraction ++ exponentChars exponent).head?.any Char.isDigit = false := by
  cases fraction with
  | nil => exact head?_exponentChars exponent
  | cons c digits => rfl

/-- The literal that the characters behind a sign spell. -/
def ofUnsigned? (negative : Bool) (chars : List Char) : Option Literal :=
  let (whole, chars) := chars.span Char.isDigit
  if isWhole whole then
    match chars with
    | '.' :: rest =>
      let (fraction, rest) := rest.span Char.isDigit
      if fraction = [] then none
      else (exponent? rest).map fun exponent => ⟨negative, whole, fraction, exponent⟩
    | rest => (exponent? rest).map fun exponent => ⟨negative, whole, [], exponent⟩
  else none

theorem ofChars?_minus (chars : List Char) : ofChars? ('-' :: chars) = ofUnsigned? true chars :=
  rfl

theorem ofChars?_cons {c : Char} (hc : c ≠ '-') (chars : List Char) :
    ofChars? (c :: chars) = ofUnsigned? false (c :: chars) := by
  rw [ofChars?]
  · rfl
  · intro rest h
    exact hc (List.cons.inj h).1

theorem ofUnsigned?_append {whole fraction : List Char} (hwhole : isWhole whole = true)
    (hdecimal : ∀ c ∈ whole, c.isDigit) (hfraction : ∀ c ∈ fraction, c.isDigit) (negative : Bool)
    (exponent : Option Int) :
    ofUnsigned? negative (whole ++ (fractionChars fraction ++ exponentChars exponent)) =
      some ⟨negative, whole, fraction, exponent⟩ := by
  have hspan := span_append hdecimal (head?_fractionChars_append fraction exponent)
  have hexponent := exponent?_exponentChars exponent
  simp only [ofUnsigned?, hspan, hwhole, if_true]
  cases fraction with
  | nil =>
    have hmap := congrArg (Option.map fun e => (⟨negative, whole, [], e⟩ : Literal)) hexponent
    cases exponent <;> exact hmap
  | cons c digits =>
    have hrest := span_append hfraction (head?_exponentChars exponent)
    rw [List.cons_append] at hrest
    simp only [fractionChars, List.cons_append, hrest, hexponent, reduceCtorEq, if_false,
      Option.map_some]

variable {l : Literal}

theorem ofChars?_chars (h : l.WellSpelled) : ofChars? l.chars = some l := by
  obtain ⟨negative, whole, fraction, exponent⟩ := l
  obtain ⟨hwhole, hdecimal, hfraction⟩ := h
  have hunsigned := ofUnsigned?_append hwhole hdecimal hfraction negative exponent
  cases negative with
  | true => exact (ofChars?_minus _).trans hunsigned
  | false =>
    cases whole with
    | nil => contradiction
    | cons c digits =>
      have hdigit := (List.forall_mem_cons.1 hdecimal).1
      have hc : c ≠ '-' := by
        rintro rfl
        contradiction
      exact (ofChars?_cons hc _).trans hunsigned

theorem isNumberChar_of_isDigit {c : Char} (hc : c.isDigit) : isNumberChar c = true := by
  simp [isNumberChar, hc]

/-- Literals are spelled with the characters of numbers. -/
theorem isNumberChar_of_mem_chars (h : l.WellSpelled) : ∀ c ∈ l.chars, isNumberChar c = true := by
  have hfraction : ∀ c ∈ fractionChars l.fraction, isNumberChar c = true := by
    cases hf : l.fraction with
    | nil => simp [fractionChars]
    | cons d digits =>
      intro c hc
      rcases List.mem_cons.1 hc with rfl | hc
      · decide
      · exact isNumberChar_of_isDigit (h.fractionDecimal c (hf ▸ hc))
  have hexponent : ∀ c ∈ exponentChars l.exponent, isNumberChar c = true := by
    cases l.exponent with
    | none => simp [exponentChars]
    | some e =>
      simp only [exponentChars, List.forall_mem_cons]
      refine ⟨by decide, by split <;> decide, fun c hc => ?_⟩
      exact isNumberChar_of_isDigit (Nat.isDigit_of_mem_toDigits (by decide) (by decide) hc)
  simp only [chars, List.forall_mem_append]
  refine ⟨?_, fun c hc => isNumberChar_of_isDigit (h.wholeDecimal c hc), hfraction, hexponent⟩
  split <;> simp [isNumberChar]

/-- A literal begins with a digit or with its sign. -/
theorem exists_chars_eq_cons (h : l.WellSpelled) :
    ∃ c rest, l.chars = c :: rest ∧ (c.isDigit || c = '-') = true := by
  obtain ⟨negative, whole, fraction, exponent⟩ := l
  cases negative with
  | true => exact ⟨'-', _, rfl, rfl⟩
  | false =>
    cases whole with
    | nil => exact absurd h.whole Bool.false_ne_true
    | cons c digits =>
      have hc := (List.forall_mem_cons.1 h.wholeDecimal).1
      exact ⟨c, _, rfl, by simp [hc]⟩

end Literal

end Json

end TreePath
