import TreePath.Number.Integer
import TreePath.Tree.Basic

/-!
Numbers of JSON text: how they are spelled, and what they denote.
-/

namespace TreePath

namespace Json

/-- What a number of a JSON text denotes: an integer of 64 bits, signed or not, or else a finite
double. -/
inductive Number where
  | integer (n : Int) (fits : -0x8000000000000000 ≤ n ∧ n < 0x10000000000000000)
  | float (x : Binary64) (finite : x.isFinite = true)
  deriving DecidableEq, Repr

namespace Number

def toInt64? : Number → Option Int64
  | .integer n _ => int64? n
  | .float x _ => x.toInt64?

def toBinary64 : Number → Binary64
  | .integer n _ => .ofInt n
  | .float x _ => x

instance : Numeric Number := ⟨toInt64?, toBinary64⟩

/-- The signed word that an integer is. -/
def word? : Number → Option Int64
  | .integer n _ => int64? n
  | .float _ _ => none

/-- The double nearest to the number, if there is a finite one. -/
def double? (m : Number) : Option Binary64 :=
  if m.toBinary64.isFinite then some m.toBinary64 else none

/-- The conversion of a number: to the signed word, or else to the double, or else to a default. -/
def convert (default : Binary64) (m : Number) : TreePath.Number :=
  match m.word? with
  | some i => .integer i
  | none => .float (m.double?.getD default)

/-- The number as a document holds it: exact where it fits 64 bits with a sign. -/
def toDocument (m : Number) : TreePath.Number := m.convert .nan

/-- Equality of one form and value. -/
def equal : Number → Number → Bool
  | .integer m _, .integer n _ => m = n
  | .float x _, .float y _ => x.equal y
  | _, _ => false

def text : Number → List Char
  | .integer n _ => (toString n).toList
  | .float x _ => (x.text .json).toList

def ofBinary64? (x : Binary64) : Option Number :=
  if h : x.isFinite = true then some (.float x h) else none

end Number

/-- The spelling of a number. Without a fraction there are no digits behind the point. -/
structure Literal where
  negative : Bool
  whole : List Char
  fraction : List Char
  exponent : Option Int
  deriving DecidableEq, Repr

namespace Literal

def isInteger (l : Literal) : Bool := l.fraction = [] && l.exponent = none

def toInt (l : Literal) : Int :=
  if l.negative then -(digitsValue l.whole : Int) else digitsValue l.whole

def toBinary64 (l : Literal) : Binary64 :=
  .ofDecimal l.negative (digitsValue (l.whole ++ l.fraction))
    (l.exponent.getD 0 - l.fraction.length)

/-- What the literal denotes. An integer literal is exact where 64 bits hold it, except that minus
zero keeps its sign as a double; a literal too large for a double denotes nothing. -/
def number? (l : Literal) : Option Number :=
  let n := l.toInt
  if h : -0x8000000000000000 ≤ n ∧ n < 0x10000000000000000 then
    if l.isInteger && !(l.negative && n = 0) then some (.integer n h)
    else Number.ofBinary64? l.toBinary64
  else Number.ofBinary64? l.toBinary64

/-- Whether digits may stand before the point: at least one, and no superfluous zero in front. -/
def isWhole : List Char → Bool
  | [] => false
  | c :: rest => c ≠ '0' || rest.isEmpty

/-- The exponent that the characters spell, if there are any: a letter, a sign, digits. -/
def exponent? : List Char → Option (Option Int)
  | [] => some none
  | e :: rest =>
    if e = 'e' ∨ e = 'E' then
      let (negative, digits) : Bool × List Char := match rest with
        | '-' :: ds => (true, ds)
        | '+' :: ds => (false, ds)
        | ds => (false, ds)
      if digits ≠ [] ∧ digits.all Char.isDigit then
        some (some (if negative then -(digitsValue digits : Int) else digitsValue digits))
      else none
    else none

def ofChars? (chars : List Char) : Option Literal :=
  let (negative, chars) : Bool × List Char := match chars with
    | '-' :: rest => (true, rest)
    | cs => (false, cs)
  let (whole, chars) := chars.span Char.isDigit
  if isWhole whole then
    match chars with
    | '.' :: rest =>
      let (fraction, rest) := rest.span Char.isDigit
      if fraction = [] then none
      else (exponent? rest).map fun exponent => ⟨negative, whole, fraction, exponent⟩
    | rest => (exponent? rest).map fun exponent => ⟨negative, whole, [], exponent⟩
  else none

end Literal

abbrev Value := Tree Number

def Value.toNode (v : Value) : Node := v.map Number.toDocument

end Json

end TreePath
