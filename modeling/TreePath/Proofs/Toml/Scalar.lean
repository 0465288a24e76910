import TreePath.Proofs.Lists
import TreePath.Proofs.Number.Numeral
import TreePath.Toml.Reader

/-!
Values without quotes, as they are written. Every integer is read back from its shortest spelling, and
never taken for a date or a time, whose marks stand behind a first character.
-/

namespace TreePath

namespace Toml

theorem ungroup?_digits {digits : List Char} (nonempty : digits ≠ [])
    (decimal : ∀ c ∈ digits, c.isDigit) : ungroup? Char.isDigit digits = some digits := by
  induction digits with
  | nil => contradiction
  | cons c digits ih =>
    obtain ⟨hc, decimal⟩ := List.forall_mem_cons.1 decimal
    cases digits with
    | nil => simp [ungroup?, hc]
    | cons d digits =>
      have hd : d ≠ '_' := by
        rintro rfl
        exact absurd (decimal '_' List.mem_cons_self) (by decide)
      rw [ungroup?, if_pos hc, ih (List.cons_ne_nil d digits) decimal]
      · rfl
      · simp
      · simp [hd]

/-- The digits of a number are no more than it needs. -/
theorem wholeDigits?_toDigits (n : Nat) :
    wholeDigits? (Nat.toDigits 10 n) = some (Nat.toDigits 10 n) := by
  rw [wholeDigits?, ungroup?_digits Nat.toDigits_ne_nil (decimal_toDigits n)]
  by_cases hn : n = 0
  · subst hn
    rfl
  · obtain ⟨c, rest, hdigits, hc⟩ := exists_toDigits_eq_cons hn
    simp [hdigits, hc]

theorem takeSign_digits {digits : List Char} (decimal : ∀ c ∈ digits, c.isDigit) :
    takeSign digits = (false, digits) := by
  unfold takeSign
  split
  · exact absurd (decimal '-' List.mem_cons_self) (by decide)
  · exact absurd (decimal '+' List.mem_cons_self) (by decide)
  · rfl

/-- The spelling of an integer, with the sign that is taken off it. -/
theorem takeSign_toString (n : Int) :
    takeSign (toString n).toList = (decide (n < 0), Nat.toDigits 10 n.natAbs) := by
  rw [toList_toString]
  split
  · next hneg =>
    rw [decide_eq_true hneg]
    rfl
  · next hneg =>
    rw [decide_eq_false hneg]
    exact takeSign_digits (decimal_toDigits n.natAbs)

section Digits

variable {c : Char} {digits : List Char} (decimal : ∀ d ∈ digits, d.isDigit)

include decimal

theorem not_mem_of_not_isDigit {d : Char} (hd : d.isDigit = false) : d ∉ digits := by
  intro h
  rw [decimal d h] at hd
  contradiction

theorem ne_cons_of_not_isDigit {a b : Char} {rest : List Char} (hb : b.isDigit = false) :
    c :: digits ≠ a :: b :: rest := by
  intro h
  have hmem : b ∈ digits := (List.cons.inj h).2 ▸ List.mem_cons_self
  exact not_mem_of_not_isDigit decimal hb hmem

/-- Behind the first character of a date there is a minus, and behind that of a time a colon. -/
theorem isDatetime_eq_false : isDatetime (c :: digits) = false := by
  have hminus : '-' ∉ digits := not_mem_of_not_isDigit decimal rfl
  have hcolon : ':' ∉ digits := not_mem_of_not_isDigit decimal rfl
  have hdate : afterDate? (c :: digits) = none := by
    unfold afterDate?
    split
    · next hrun =>
      rw [(List.cons.inj hrun).2] at hminus
      simp at hminus
    · rfl
  have htime : afterTime? (c :: digits) = none := by
    unfold afterTime?
    split
    · next hrun =>
      rw [(List.cons.inj hrun).2] at hcolon
      simp at hcolon
    · rfl
  rw [isDatetime, hdate, htime]
  rfl

/-- Without a letter for a base the digits are decimal. -/
theorem integer?_eq_bind : integer? (c :: digits) =
    (wholeDigits? (takeSign (c :: digits)).2).bind fun whole =>
      int64? (if (takeSign (c :: digits)).1 then -(digitsValue whole : Int)
        else digitsValue whole) := by
  unfold integer?
  split
  · next hrun => exact absurd hrun (ne_cons_of_not_isDigit decimal rfl)
  · next hrun => exact absurd hrun (ne_cons_of_not_isDigit decimal rfl)
  · next hrun => exact absurd hrun (ne_cons_of_not_isDigit decimal rfl)
  · rfl

theorem scalar_eq_integer {i : Int64} (hinteger : integer? (c :: digits) = some i) :
    scalar (c :: digits) = some (.integer i) := by
  have htrue : c :: digits ≠ ['t', 'r', 'u', 'e'] := ne_cons_of_not_isDigit decimal rfl
  have hfalse : c :: digits ≠ ['f', 'a', 'l', 's', 'e'] := ne_cons_of_not_isDigit decimal rfl
  rw [scalar, if_neg htrue, if_neg hfalse, isDatetime_eq_false decimal, hinteger]
  rfl

end Digits

/-- An integer is spelled with a sign or a digit, and digits. -/
theorem exists_toString_eq_cons (n : Int) :
    ∃ c digits, (toString n).toList = c :: digits ∧ isRunChar c ∧ ∀ d ∈ digits, d.isDigit := by
  have hdecimal := decimal_toDigits n.natAbs
  rw [toList_toString]
  split
  · exact ⟨_, _, rfl, rfl, hdecimal⟩
  · cases hdigits : Nat.toDigits 10 n.natAbs with
    | nil => exact absurd hdigits Nat.toDigits_ne_nil
    | cons c digits =>
      rw [hdigits] at hdecimal
      obtain ⟨hc, hrest⟩ := List.forall_mem_cons.1 hdecimal
      exact ⟨c, digits, rfl, by simp [isRunChar, Char.isAlphanum, hc], hrest⟩

theorem scalar_toString (i : Int64) : scalar (toString i.toInt).toList = some (.integer i) := by
  obtain ⟨c, digits, hspelled, -, decimal⟩ := exists_toString_eq_cons i.toInt
  have hsign := takeSign_toString i.toInt
  rw [hspelled] at hsign ⊢
  apply scalar_eq_integer decimal
  rw [integer?_eq_bind decimal, hsign, wholeDigits?_toDigits, Option.bind_some,
    int64?_eq_some_iff, digitsValue_toDigits]
  by_cases hneg : i.toInt < 0
  · rw [if_pos (decide_eq_true hneg)]
    omega
  · rw [if_neg (by simpa using hneg)]
    omega

theorem scalar_toString_boolean (b : Bool) :
    scalar (if b then "true" else "false").toList = some (.boolean b) := by
  cases b <;> rfl

/-- A run of characters in front of the end of a line is read as a whole. -/
theorem readValue_run {run : List Char} {value : Value} (nonempty : run ≠ [])
    (hrun : ∀ c ∈ run, isRunChar c) (hvalue : scalar run = some value) (depth : Nat)
    (rest : List Char) :
    readValue depth (run ++ '\n' :: rest) = some (value, '\n' :: rest) := by
  have hscalar : readScalar (run ++ '\n' :: rest) = some (value, '\n' :: rest) := by
    rw [readScalar, span_append hrun rfl]
    simp [hvalue]
  cases run with
  | nil => contradiction
  | cons c run =>
    have hc := hrun c List.mem_cons_self
    have hne {d : Char} {more : List Char} (hd : isRunChar d = false) :
        c :: (run ++ '\n' :: rest) ≠ d :: more := by
      intro h
      rw [← (List.cons.inj h).1, hc] at hd
      contradiction
    rw [← hscalar, List.cons_append]
    unfold readValue
    split
    · next hquote => exact absurd hquote (hne rfl)
    · next hquote => exact absurd hquote (hne rfl)
    · rfl
    · next hbracket => exact absurd hbracket (hne rfl)
    · next hbrace => exact absurd hbrace (hne rfl)
    · rfl

theorem readValue_toString (i : Int64) (depth : Nat) (rest : List Char) :
    readValue depth ((toString i.toInt).toList ++ '\n' :: rest) =
      some (.integer i, '\n' :: rest) := by
  obtain ⟨c, digits, hspelled, hc, decimal⟩ := exists_toString_eq_cons i.toInt
  refine readValue_run ?_ ?_ (scalar_toString i) depth rest
  · rw [hspelled]
    exact List.cons_ne_nil c digits
  · rw [hspelled]
    refine List.forall_mem_cons.2 ⟨hc, fun d hd => ?_⟩
    simp [isRunChar, Char.isAlphanum, decimal d hd]

theorem readValue_toString_boolean (b : Bool) (depth : Nat) (rest : List Char) :
    readValue depth ((if b then "true" else "false").toList ++ '\n' :: rest) =
      some (.boolean b, '\n' :: rest) := by
  have hscalar := scalar_toString_boolean b
  cases b with
  | true => exact readValue_run (by decide) (List.all_eq_true.1 rfl) hscalar depth rest
  | false => exact readValue_run (by decide) (List.all_eq_true.1 rfl) hscalar depth rest

end Toml

end TreePath
