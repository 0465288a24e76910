import Mathlib.Data.List.Infix
import TreePath.Number.Integer
import TreePath.Proofs.Number.Whole

/-!
Integers as they are spelled: decimal digits, with a sign in front or none. Among its spellings an
integer is written as the shortest, and a short word is read from every spelling of an integer in
its range, with any number of zeros in front, and from nothing else.
-/

namespace TreePath

/-! The digits of a number. -/

theorem digitsValue_append (digits more : List Char) :
    digitsValue (digits ++ more) = Nat.ofDigitChars 10 more (digitsValue digits) :=
  Nat.ofDigitChars_append 0

theorem decimal_toDigits (n : Nat) : ∀ c ∈ Nat.toDigits 10 n, c.isDigit :=
  fun _ hc => Nat.isDigit_of_mem_toDigits (by decide) (by decide) hc

/-- The digits of a number begin with no zero, unless the number is zero. -/
theorem exists_toDigits_eq_cons {n : Nat} (hn : n ≠ 0) :
    ∃ c rest, Nat.toDigits 10 n = c :: rest ∧ c ≠ '0' := by
  induction n using Nat.strongRecOn with
  | ind n ih =>
    by_cases hlt : n < 10
    · refine ⟨Nat.digitChar n, [], Nat.toDigits_of_lt_base hlt, ?_⟩
      intro h
      have hvalue := congrArg Char.toNat h
      rw [Nat.toNat_digitChar_of_lt_ten hlt] at hvalue
      have hzero : '0'.toNat = 48 := rfl
      omega
    · obtain ⟨c, rest, hdigits, hc⟩ := ih (n / 10) (by omega) (by omega)
      refine ⟨c, rest ++ [Nat.digitChar (n % 10)], ?_, hc⟩
      rw [Nat.toDigits_of_base_le (by decide) (by omega), hdigits, List.cons_append]

theorem digitChar_of_isDigit {c : Char} (hc : c.isDigit) :
    c.toNat - '0'.toNat < 10 ∧ Nat.digitChar (c.toNat - '0'.toNat) = c := by
  have hrange := Char.isDigit_iff_toNat.1 hc
  have hzero : '0'.toNat = 48 := rfl
  have hnine : '9'.toNat = 57 := rfl
  have hvalue : c.toNat - '0'.toNat < 10 := by omega
  refine ⟨hvalue, ?_⟩
  rw [← Char.toNat_inj, Nat.toNat_digitChar_of_lt_ten hvalue]
  omega

/-- Digits behind a number that is not zero are the last digits of a number. -/
theorem toDigits_ofDigitChars {n : Nat} (hn : 0 < n) {digits : List Char}
    (decimal : ∀ c ∈ digits, c.isDigit) :
    Nat.toDigits 10 (Nat.ofDigitChars 10 digits n) = Nat.toDigits 10 n ++ digits := by
  induction digits generalizing n with
  | nil => simp
  | cons c digits ih =>
    obtain ⟨hc, decimal⟩ := List.forall_mem_cons.1 decimal
    obtain ⟨hvalue, hdigit⟩ := digitChar_of_isDigit hc
    rw [Nat.ofDigitChars_cons, ih (by omega) decimal,
      ← Nat.toDigits_append_toDigits (by decide) hn hvalue, Nat.toDigits_of_lt_base hvalue, hdigit]
    simp

/-- Digits that begin with no zero are the digits of their value. -/
theorem toDigits_digitsValue {c : Char} {digits : List Char} (hzero : c ≠ '0')
    (decimal : ∀ d ∈ c :: digits, d.isDigit) :
    Nat.toDigits 10 (digitsValue (c :: digits)) = c :: digits := by
  obtain ⟨hc, htail⟩ := List.forall_mem_cons.1 decimal
  obtain ⟨hvalue, hdigit⟩ := digitChar_of_isDigit hc
  have hpos : 0 < c.toNat - '0'.toNat := by
    apply Nat.pos_of_ne_zero
    intro h
    rw [h] at hdigit
    exact hzero hdigit.symm
  have hdigits : digitsValue (c :: digits) =
      Nat.ofDigitChars 10 digits (c.toNat - '0'.toNat) := by
    simp [digitsValue, Nat.ofDigitChars_eq_foldl]
  rw [hdigits, toDigits_ofDigitChars hpos htail, Nat.toDigits_of_lt_base hvalue, hdigit,
    List.singleton_append]

/-- Whatever digits spell a number, they end in the digits of the number. -/
theorem toDigits_suffix {digits : List Char} (nonempty : digits ≠ [])
    (decimal : ∀ c ∈ digits, c.isDigit) : Nat.toDigits 10 (digitsValue digits) <:+ digits := by
  induction digits with
  | nil => contradiction
  | cons c digits ih =>
    by_cases hzero : c = '0'
    · subst hzero
      cases digits with
      | nil => exact List.suffix_rfl
      | cons d digits =>
        have htail := (List.forall_mem_cons.1 decimal).2
        exact (ih (List.cons_ne_nil d digits) htail).trans (List.suffix_cons _ _)
    · rw [toDigits_digitsValue hzero decimal]

theorem le_ofDigitChars (digits : List Char) (n : Nat) : n ≤ Nat.ofDigitChars 10 digits n := by
  induction digits generalizing n with
  | nil => exact Nat.le_refl n
  | cons c digits ih =>
    rw [Nat.ofDigitChars_cons]
    exact Nat.le_trans (by omega) (ih _)

theorem toList_toString (n : Int) :
    (toString n).toList = (if n < 0 then ['-'] else []) ++ Nat.toDigits 10 n.natAbs := by
  have hnat : ∀ m : Nat, m.repr.toList = Nat.toDigits 10 m := fun m => by
    rw [Nat.repr_eq_ofList_toDigits, String.toList_ofList]
  cases n with
  | ofNat m => exact hnat m
  | negSucc m =>
    have hsign : ("-" ++ m.succ.repr).toList = '-' :: Nat.toDigits 10 m.succ := by
      rw [String.toList_append, hnat]
      rfl
    rw [if_pos (Int.negSucc_lt_zero m)]
    exact hsign

theorem hexDigit?_digitChar {n : Nat} (hn : n < 16) : hexDigit? (Nat.digitChar n) = some n :=
  (by decide : ∀ n < 16, hexDigit? (Nat.digitChar n) = some n) n hn

theorem scalar?_toNat (c : Char) : scalar? c.toNat = some c := by
  have hvalid : c.toNat.isValidChar := c.valid
  rw [scalar?, dif_pos hvalid]
  rfl

inductive SpellsInteger : List Char → Int → Prop where
  | unsigned (digits : List Char) (nonempty : digits ≠ []) (decimal : ∀ c ∈ digits, c.isDigit) :
      SpellsInteger digits (digitsValue digits)
  | plus (digits : List Char) (nonempty : digits ≠ []) (decimal : ∀ c ∈ digits, c.isDigit) :
      SpellsInteger ('+' :: digits) (digitsValue digits)
  | minus (digits : List Char) (nonempty : digits ≠ []) (decimal : ∀ c ∈ digits, c.isDigit) :
      SpellsInteger ('-' :: digits) (-digitsValue digits)

/-- The text spells the integer, and every other spelling is longer. -/
structure ShortestSpelling (cs : List Char) (n : Int) : Prop where
  spells : SpellsInteger cs n
  shortest : ∀ other, SpellsInteger other n → other ≠ cs → cs.length < other.length

theorem not_spellsInteger_nil {n : Int} : ¬ SpellsInteger [] n := by
  generalize hcs : ([] : List Char) = cs
  rintro (_ | _ | _) <;> simp_all

theorem spellsInteger_minus_iff {digits : List Char} {n : Int} : SpellsInteger ('-' :: digits) n ↔
    digits ≠ [] ∧ (∀ c ∈ digits, c.isDigit) ∧ n = -digitsValue digits := by
  constructor
  · generalize hcs : '-' :: digits = cs
    intro h
    cases h with
    | unsigned ds nonempty decimal =>
      have hminus := decimal '-' (hcs ▸ List.mem_cons_self)
      contradiction
    | plus ds nonempty decimal => simp at hcs
    | minus ds nonempty decimal =>
      obtain rfl := (List.cons.inj hcs).2
      exact ⟨nonempty, decimal, rfl⟩
  · rintro ⟨nonempty, decimal, rfl⟩
    exact .minus digits nonempty decimal

theorem spellsInteger_plus_iff {digits : List Char} {n : Int} : SpellsInteger ('+' :: digits) n ↔
    digits ≠ [] ∧ (∀ c ∈ digits, c.isDigit) ∧ n = digitsValue digits := by
  constructor
  · generalize hcs : '+' :: digits = cs
    intro h
    cases h with
    | unsigned ds nonempty decimal =>
      have hplus := decimal '+' (hcs ▸ List.mem_cons_self)
      contradiction
    | plus ds nonempty decimal =>
      obtain rfl := (List.cons.inj hcs).2
      exact ⟨nonempty, decimal, rfl⟩
    | minus ds nonempty decimal => simp at hcs
  · rintro ⟨nonempty, decimal, rfl⟩
    exact .plus digits nonempty decimal

/-- Without a sign in front there are digits only. -/
theorem spellsInteger_unsigned_iff {c : Char} {digits : List Char} {n : Int} (hminus : c ≠ '-')
    (hplus : c ≠ '+') : SpellsInteger (c :: digits) n ↔
      (∀ d ∈ c :: digits, d.isDigit) ∧ n = digitsValue (c :: digits) := by
  constructor
  · generalize hcs : c :: digits = cs
    intro h
    cases h with
    | unsigned ds nonempty decimal => exact ⟨decimal, rfl⟩
    | plus ds nonempty decimal => exact absurd (List.cons.inj hcs).1 hplus
    | minus ds nonempty decimal => exact absurd (List.cons.inj hcs).1 hminus
  · rintro ⟨decimal, rfl⟩
    exact .unsigned _ (List.cons_ne_nil c digits) decimal

theorem spellsInteger_toString (n : Int) : SpellsInteger (toString n).toList n := by
  have hspells := decimal_toDigits n.natAbs
  rw [toList_toString]
  by_cases hneg : n < 0
  · have hn : n = -(digitsValue (Nat.toDigits 10 n.natAbs) : Int) := by
      rw [digitsValue_toDigits]
      omega
    rw [if_pos hneg]
    conv => rhs; rw [hn]
    exact .minus _ Nat.toDigits_ne_nil hspells
  · have hn : n = digitsValue (Nat.toDigits 10 n.natAbs) := by
      rw [digitsValue_toDigits]
      omega
    rw [if_neg hneg]
    conv => rhs; rw [hn]
    exact .unsigned _ Nat.toDigits_ne_nil hspells

/-- An integer is written in the shortest of its spellings. -/
theorem shortestSpelling_toString (n : Int) : ShortestSpelling (toString n).toList n where
  spells := spellsInteger_toString n
  shortest other spells hne := by
    rw [toList_toString] at hne ⊢
    cases spells with
    | unsigned digits nonempty decimal =>
      have hsuffix := toDigits_suffix nonempty decimal
      rw [if_neg (by omega), List.nil_append, Int.natAbs_natCast] at hne ⊢
      exact Nat.lt_of_le_of_ne hsuffix.length_le fun h => hne (hsuffix.eq_of_length h).symm
    | plus digits nonempty decimal =>
      rw [if_neg (by omega), List.nil_append, Int.natAbs_natCast]
      exact Nat.lt_succ_of_le (toDigits_suffix nonempty decimal).length_le
    | minus digits nonempty decimal =>
      have hsuffix := toDigits_suffix nonempty decimal
      rw [Int.natAbs_neg, Int.natAbs_natCast] at hne ⊢
      split at hne
      · next hneg =>
        rw [if_pos hneg]
        refine Nat.succ_lt_succ (Nat.lt_of_le_of_ne hsuffix.length_le fun h => hne ?_)
        rw [hsuffix.eq_of_length h]
        rfl
      · next hneg =>
        rw [if_neg hneg]
        exact Nat.lt_succ_of_le hsuffix.length_le

/-- A number of digits, with the sign that stands in front of them. -/
def withSign (negative : Bool) (n : Nat) : Int := if negative then -n else n

/-- A number that is further from zero than one that does not fit does not fit either. -/
theorem toInt_ne_withSign {negative : Bool} {m n : Nat} (hle : m ≤ n)
    (hfits : int32? (withSign negative m) = none) (i : Int32) : i.toInt ≠ withSign negative n := by
  have hge := Int32.le_toInt i
  have hlt := Int32.toInt_lt i
  rw [int32?_eq_ite] at hfits
  have hrange : ¬ (-2 ^ 31 ≤ withSign negative m ∧ withSign negative m ≤ 2 ^ 31 - 1) := by
    intro h
    rw [if_pos h] at hfits
    contradiction
  cases negative <;> simp only [withSign, Bool.false_eq_true, if_true, if_false] at hrange ⊢ <;>
    omega

/-- Digits are read to their end exactly where they all are digits and the whole number fits: more
digits only lead away from zero, so that no number fits once its first digits do not. -/
theorem readDigits32_eq_ok_iff (negative : Bool) (m : Nat) (digits : List Char) (i : Int32) :
    readDigits32 negative (withSign negative m) digits = .ok i ↔
      (∀ c ∈ digits, c.isDigit) ∧ i.toInt = withSign negative (Nat.ofDigitChars 10 digits m) := by
  induction digits generalizing m with
  | nil =>
    rw [readDigits32, Nat.ofDigitChars_nil]
    cases hfits : int32? (withSign negative m) with
    | some j =>
      rw [← int32?_eq_some_iff.1 hfits, Int32.toInt_inj]
      constructor
      · intro h
        exact ⟨List.forall_mem_nil _, (Except.ok.inj h).symm⟩
      · rintro ⟨-, rfl⟩
        rfl
    | none => simp [toInt_ne_withSign (Nat.le_refl m) hfits i]
  | cons c digits ih =>
    rw [readDigits32, List.forall_mem_cons, Nat.ofDigitChars_cons]
    by_cases hc : c.isDigit
    · have hrange := Char.isDigit_iff_toNat.1 hc
      have hzero : '0'.toNat = 48 := rfl
      have hnext : (if negative then 10 * withSign negative m - ((c.toNat : Int) - '0'.toNat)
          else 10 * withSign negative m + ((c.toNat : Int) - '0'.toNat)) =
          withSign negative (10 * m + (c.toNat - '0'.toNat)) := by
        cases negative <;> simp only [withSign, Bool.false_eq_true, if_true, if_false] <;> omega
      simp only [hc, if_true, true_and, hnext]
      cases hfits : int32? (withSign negative (10 * m + (c.toNat - '0'.toNat))) with
      | some j => exact ih _
      | none =>
        have hne := toInt_ne_withSign (le_ofDigitChars digits _) hfits i
        exact iff_of_false (by simp) fun h => hne h.2
    · simp [hc]

/-- A text is read as a short word exactly where it spells the integer that the word is. -/
theorem readInt32_eq_ok_iff (text : String) (i : Int32) :
    readInt32 text = .ok i ↔ SpellsInteger text.toList i.toInt := by
  have hdigits (negative : Bool) (digits : List Char) :
      readDigits32 negative 0 digits = .ok i ↔
        (∀ c ∈ digits, c.isDigit) ∧ i.toInt = withSign negative (digitsValue digits) := by
    cases negative <;> exact readDigits32_eq_ok_iff _ 0 digits i
  unfold readInt32
  split
  · next hnil =>
    rw [hnil]
    exact iff_of_false (by simp) not_spellsInteger_nil
  · next hsign =>
    rw [hsign, spellsInteger_minus_iff]
    simp
  · next hsign =>
    rw [hsign, spellsInteger_plus_iff]
    simp
  · next digits nonempty htext =>
    rw [htext, spellsInteger_minus_iff, hdigits, and_iff_right nonempty]
    rfl
  · next digits nonempty htext =>
    rw [htext, spellsInteger_plus_iff, hdigits, and_iff_right nonempty]
    rfl
  · next hnil _ _ hminus hplus =>
    rw [hdigits]
    cases htext : text.toList with
    | nil => exact (hnil htext).elim
    | cons c digits =>
      rw [spellsInteger_unsigned_iff (fun h => hminus digits (h ▸ htext))
        (fun h => hplus digits (h ▸ htext))]
      rfl

/-- What is read as a short word is a spelling of an integer in its range. -/
theorem exists_readInt32_iff (text : String) : (∃ i, readInt32 text = .ok i) ↔
    ∃ n, SpellsInteger text.toList n ∧ -2 ^ 31 ≤ n ∧ n ≤ 2 ^ 31 - 1 := by
  simp only [readInt32_eq_ok_iff]
  constructor
  · rintro ⟨i, spells⟩
    have hlt := Int32.toInt_lt i
    exact ⟨i.toInt, spells, Int32.le_toInt i, by omega⟩
  · rintro ⟨n, spells, hge, hle⟩
    refine ⟨Int32.ofInt n, ?_⟩
    rwa [Int32.toInt_ofInt_of_le hge (by omega)]

example : readInt32 "+007" = .ok 7 := by rfl

end TreePath
