import TreePath.Proofs.Json.Builder
import TreePath.Proofs.Json.Number
import TreePath.Proofs.Query.Answer
import TreePath.Proofs.Tree.Walk
import TreePath.Query.Basic

/-!
The numbers of a text: what is read for its literals, and for the integers among them.
-/

namespace TreePath

/-!
The value of a text is the tree of its spelling, with every number in place of its literal.
-/

namespace Json

/-- A literal, with the number that it denotes. -/
structure Numeral where
  literal : Literal
  number : Number
  denotes : literal.number? = some number

namespace Token

theorem exists_numeral {token : Token Literal} {value : Token Number}
    (h : token.mapNumber? Literal.number? = some value) :
    ∃ numeral : Token Numeral,
      token = numeral.map Numeral.literal ∧ value = numeral.map Numeral.number := by
  cases token with
  | number l =>
    obtain ⟨n, hn, rfl⟩ := Option.map_eq_some_iff.1 h
    exact ⟨.number ⟨l, n, hn⟩, rfl, rfl⟩
  | arrayStart => exact ⟨.arrayStart, rfl, (Option.some.inj h).symm⟩
  | arrayEnd => exact ⟨.arrayEnd, rfl, (Option.some.inj h).symm⟩
  | objectStart => exact ⟨.objectStart, rfl, (Option.some.inj h).symm⟩
  | objectEnd => exact ⟨.objectEnd, rfl, (Option.some.inj h).symm⟩
  | comma => exact ⟨.comma, rfl, (Option.some.inj h).symm⟩
  | colon => exact ⟨.colon, rfl, (Option.some.inj h).symm⟩
  | null => exact ⟨.null, rfl, (Option.some.inj h).symm⟩
  | boolean b => exact ⟨.boolean b, rfl, (Option.some.inj h).symm⟩
  | string s => exact ⟨.string s, rfl, (Option.some.inj h).symm⟩

/-- Where every literal denotes a number, tokens and values come from the same numerals. -/
theorem exists_numerals {tokens : List (Token Literal)} {values : List (Token Number)}
    (h : tokens.mapM (mapNumber? Literal.number?) = some values) :
    ∃ numerals : List (Token Numeral),
      tokens = numerals.map (Token.map Numeral.literal) ∧
      values = numerals.map (Token.map Numeral.number) := by
  induction tokens generalizing values with
  | nil => exact ⟨[], rfl, (Option.some.inj h).symm⟩
  | cons token tokens ih =>
    rw [List.mapM_cons] at h
    obtain ⟨value, hvalue, h⟩ := Option.bind_eq_some_iff.1 h
    obtain ⟨rest, hrest, h⟩ := Option.bind_eq_some_iff.1 h
    obtain ⟨numeral, rfl, rfl⟩ := exists_numeral hvalue
    obtain ⟨numerals, rfl, rfl⟩ := ih hrest
    exact ⟨numeral :: numerals, rfl, (Option.some.inj h).symm⟩

end Token

/-- A text that has a value has a tree of literals of the same shape, and each of its numbers is
what the literal in its place denotes. -/
theorem exists_tree_of_read? {text : String} {v : Value} (h : read? text = some v) :
    ∃ t : Tree Numeral,
      literals? text = some (t.map Numeral.literal) ∧ v = t.map Numeral.number := by
  obtain ⟨values, hvalues, hbuild⟩ := Option.bind_eq_some_iff.1 h
  obtain ⟨tokens, htokens, hmap⟩ := Option.bind_eq_some_iff.1 hvalues
  obtain ⟨numerals, rfl, rfl⟩ := Token.exists_numerals hmap
  rw [build?_map] at hbuild
  obtain ⟨t, ht, rfl⟩ := Option.map_eq_some_iff.1 hbuild
  refine ⟨t, ?_, rfl⟩
  rw [literals?, htokens, Option.bind_some, build?_map, ht, Option.map_some]

/-!
Integer literals. One that fits a signed word is read as that word and one that fits an unsigned
word is kept exactly; every other integer is read as the double nearest to it, and the few integers
just below the least signed word are nearest to that word.
-/

/-- The signed word that an integer is read as: itself, or the least word where the double nearest
to the integer is that word. -/
def integerWord? (n : Int) : Option Int64 :=
  if -2 ^ 63 - 1024 ≤ n ∧ n < -2 ^ 63 then some Int64.minValue else int64? n

theorem toInt64?_ofInt_of_not_fits {n : Int} (hn : n < -2 ^ 63 ∨ 2 ^ 63 ≤ n) :
    (Binary64.ofInt n).toInt64? = integerWord? n := by
  apply Option.ext
  intro i
  rw [Binary64.toInt64?_ofInt_eq_some_iff hn, integerWord?, int64?_eq_ite]
  by_cases h : -2 ^ 63 - 1024 ≤ n ∧ n < -2 ^ 63
  · rw [if_pos h]
    exact ⟨fun hi => congrArg some hi.2.symm, fun hi => ⟨h, (Option.some.inj hi).symm⟩⟩
  · rw [if_neg h, if_neg (by omega)]
    exact ⟨fun hi => absurd hi.1 h, fun hi => by contradiction⟩

theorem Number.ofBinary64?_eq_some_iff {x : Binary64} {n : Number} :
    Number.ofBinary64? x = some n ↔ ∃ finite, n = .float x finite := by
  rw [Number.ofBinary64?]
  split
  · next h =>
    rw [Option.some_inj, eq_comm]
    exact ⟨fun hn => ⟨h, hn⟩, Exists.snd⟩
  · next h =>
    refine ⟨fun hn => by contradiction, ?_⟩
    rintro ⟨finite, -⟩
    exact absurd finite h

namespace Literal

variable {l : Literal}

/-- An integer literal other than zero is rounded as the integer that it denotes. -/
theorem toBinary64_of_isInteger (hl : l.isInteger = true) (hn : l.toInt ≠ 0) :
    l.toBinary64 = .ofInt l.toInt := by
  obtain ⟨negative, whole, fraction, exponent⟩ := l
  simp only [isInteger, Bool.and_eq_true, decide_eq_true_eq] at hl
  obtain ⟨rfl, rfl⟩ := hl
  have hwhole : digitsValue whole ≠ 0 := by
    intro h
    apply hn
    simp [toInt, h]
  have hsign : decide (toInt ⟨negative, whole, [], none⟩ < 0) = negative := by
    cases negative with
    | false => simp [toInt]
    | true =>
      simp only [toInt, if_true, decide_eq_true_eq]
      omega
  have habs : (toInt ⟨negative, whole, [], none⟩).natAbs = digitsValue whole := by
    cases negative <;> simp [toInt]
  have hdecimal := Binary64.ofDecimal_zero negative hwhole
  rw [Binary64.ofInt, hsign, habs, ← hdecimal]
  simp [toBinary64]

/-- The literal of minus zero denotes the double that keeps its sign. -/
theorem toBinary64_minus_zero (hl : l.isInteger = true) (hsign : l.negative = true)
    (hn : l.toInt = 0) : l.toBinary64 = .ofMagnitudeBits true 0 := by
  obtain ⟨negative, whole, fraction, exponent⟩ := l
  simp only [isInteger, Bool.and_eq_true, decide_eq_true_eq] at hl hsign
  obtain ⟨rfl, rfl⟩ := hl
  subst hsign
  have hwhole : digitsValue whole = 0 := by
    simpa [toInt] using hn
  simp [toBinary64, Binary64.ofDecimal, hwhole]

/-- What an integer literal denotes: the integer, minus zero, or the double nearest to an integer
that 64 bits do not hold. -/
theorem number?_cases {x : Number} (hl : l.isInteger = true) (hx : l.number? = some x) :
    (∃ fits, x = .integer l.toInt fits) ∨
    (l.toInt = 0 ∧ ∃ finite, x = .float (.ofMagnitudeBits true 0) finite) ∨
    ((l.toInt < -2 ^ 63 ∨ 2 ^ 64 ≤ l.toInt) ∧ ∃ finite, x = .float (.ofInt l.toInt) finite) := by
  unfold number? at hx
  dsimp only at hx
  split at hx
  · next hfits =>
    split at hx
    · exact .inl ⟨hfits, (Option.some.inj hx).symm⟩
    · next hzero =>
      have hminus : l.negative = true ∧ l.toInt = 0 := by simpa [hl] using hzero
      rw [toBinary64_minus_zero hl hminus.1 hminus.2] at hx
      obtain ⟨finite, hx⟩ := Number.ofBinary64?_eq_some_iff.1 hx
      exact .inr (.inl ⟨hminus.2, finite, hx⟩)
  · next hfits =>
    rw [toBinary64_of_isInteger hl (by omega)] at hx
    obtain ⟨finite, hx⟩ := Number.ofBinary64?_eq_some_iff.1 hx
    exact .inr (.inr ⟨by omega, finite, hx⟩)

/-- An integer literal is read as the same signed word from a value and from a document. -/
theorem toInt64?_of_isInteger {x : Number} (hl : l.isInteger = true) (hx : l.number? = some x) :
    x.toInt64? = integerWord? l.toInt ∧ x.toDocument.toInt64? = integerWord? l.toInt := by
  have hword : x.toInt64? = integerWord? l.toInt := by
    rcases number?_cases hl hx with ⟨fits, rfl⟩ | ⟨hzero, finite, rfl⟩ | ⟨hrange, finite, rfl⟩
    · rw [integerWord?, if_neg (by omega)]
      rfl
    · have hminus : integerWord? l.toInt = some 0 := by rw [hzero]; decide
      rw [hminus]
      exact Binary64.toInt64?_minus_zero
    · exact toInt64?_ofInt_of_not_fits (by omega)
  exact ⟨hword, x.toInt64?_toDocument.trans hword⟩

end Literal

end Json

end TreePath
