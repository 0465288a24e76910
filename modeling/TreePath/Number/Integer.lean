/-!
Integers: the words that hold them, the digits they are spelled with, and the reading of a short one.
A word is found exactly when its value is the number asked for.
-/

namespace TreePath

/-- The signed 64-bit word equal to `n`, if there is one. -/
def int64? (n : Int) : Option Int64 :=
  if (Int64.ofInt n).toInt = n then some (Int64.ofInt n) else none

def int32? (n : Int) : Option Int32 :=
  if (Int32.ofInt n).toInt = n then some (Int32.ofInt n) else none

def uint64? (n : Nat) : Option UInt64 :=
  if (UInt64.ofNat n).toNat = n then some (UInt64.ofNat n) else none

/-- A number that is turned into a word and kept where the word has its value gives the words of that
value, and no others. -/
theorem kept_eq_some_iff {ν ω : Type} [DecidableEq ν] (ofValue : ν → ω) (value : ω → ν)
    (ofValue_value : ∀ w, ofValue (value w) = w) {n : ν} {w : ω} :
    (if value (ofValue n) = n then some (ofValue n) else none) = some w ↔ value w = n := by
  constructor
  · intro h
    split at h
    · next hn => rw [← Option.some.inj h, hn]
    · contradiction
  · rintro rfl
    rw [ofValue_value, if_pos rfl]

theorem int64?_eq_some_iff {n : Int} {w : Int64} : int64? n = some w ↔ w.toInt = n :=
  kept_eq_some_iff Int64.ofInt Int64.toInt Int64.ofInt_toInt

theorem int32?_eq_some_iff {n : Int} {w : Int32} : int32? n = some w ↔ w.toInt = n :=
  kept_eq_some_iff Int32.ofInt Int32.toInt Int32.ofInt_toInt

theorem uint64?_eq_some_iff {n : Nat} {w : UInt64} : uint64? n = some w ↔ w.toNat = n :=
  kept_eq_some_iff UInt64.ofNat UInt64.toNat (fun _ => UInt64.ofNat_toNat)

/-!
Runs of decimal and hexadecimal digits.
-/

def digitsValue (digits : List Char) : Nat :=
  digits.foldl (fun n c => 10 * n + (c.toNat - '0'.toNat)) 0

@[simp] theorem digitsValue_toDigits (n : Nat) : digitsValue (Nat.toDigits 10 n) = n :=
  Nat.ofDigitChars_ten_toDigits

def hexDigit? (c : Char) : Option Nat :=
  if c.isDigit then some (c.toNat - '0'.toNat)
  else if 'a' ≤ c ∧ c ≤ 'f' then some (c.toNat - 'a'.toNat + 10)
  else if 'A' ≤ c ∧ c ≤ 'F' then some (c.toNat - 'A'.toNat + 10)
  else none

/-- The last `count` hexadecimal digits of a number, in lower case and padded with zeros. -/
def hexChars : Nat → Nat → List Char
  | 0, _ => []
  | count + 1, n => hexChars count (n / 16) ++ [Nat.digitChar (n % 16)]

/-- The character of a code point, unless it is a surrogate or too large. -/
def scalar? (code : Nat) : Option Char :=
  if h : code.isValidChar then some (Char.ofNatAux code h) else none

/-!
Reading a signed 32-bit integer from text.
-/

inductive IntegerError where
  | empty
  | invalidDigit
  | tooLarge
  | tooSmall
  deriving DecidableEq, Repr

namespace IntegerError

def message : IntegerError → String
  | .empty => "cannot parse integer from empty string"
  | .invalidDigit => "invalid digit found in string"
  | .tooLarge => "number too large to fit in target type"
  | .tooSmall => "number too small to fit in target type"

end IntegerError

/-- Takes the digits from left to right and stops at the first fault. A character that is no digit
is noticed before the range is. -/
def readDigits32 (negative : Bool) (n : Int) : List Char → Except IntegerError Int32
  | [] =>
    match int32? n with
    | some i => .ok i
    | none => .error (if negative then .tooSmall else .tooLarge)
  | c :: rest =>
    if c.isDigit then
      let digit : Int := c.toNat - '0'.toNat
      let next := if negative then 10 * n - digit else 10 * n + digit
      if (int32? next).isSome then readDigits32 negative next rest
      else .error (if negative then .tooSmall else .tooLarge)
    else .error .invalidDigit

/-- The integer that a text spells: digits, with a sign in front or none. -/
def readInt32 (text : String) : Except IntegerError Int32 :=
  match text.toList with
  | [] => .error .empty
  | ['-'] | ['+'] => .error .invalidDigit
  | '-' :: digits => readDigits32 true 0 digits
  | '+' :: digits => readDigits32 false 0 digits
  | digits => readDigits32 false 0 digits

end TreePath
