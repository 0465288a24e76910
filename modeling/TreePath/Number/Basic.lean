import TreePath.Number.Binary64

/-!
Numbers at the leaves of a tree, the two questions asked of them, and how they are written. The digits
of a double are the shortest that read back; a `Layout` holds every other decision of a text format.
-/

namespace TreePath

/-- The decisions of a text format for numbers. -/
structure Layout where
  tie : Tie
  /-- The exponents of the leading digit that are written without an exponent; `none` for all. -/
  positional : Option (Int × Int)
  /-- Whether a whole number keeps `.0` in positional form. -/
  pointZero : Bool
  deriving Repr

/-- Numbers in JSON text: positional from 1e-5 up to 1e15, always with a decimal place. -/
def Layout.json : Layout := ⟨.toEven, some (-5, 15), true⟩

/-- Numbers in plain text: never an exponent, and no decimal place for a whole number. -/
def Layout.plain : Layout := ⟨.upward, none, false⟩

namespace Binary64

def digitsOf (n : Nat) : List Char := Nat.toDigits 10 n

/-- A decimal written out: the point stands `exponent` places from the right end of `digits`. -/
def positionalText (pointZero : Bool) (digits : List Char) (exponent : Int) : List Char :=
  let tail : List Char := if pointZero then ['.', '0'] else []
  if 0 ≤ exponent then
    digits ++ List.replicate exponent.toNat '0' ++ tail
  else
    let places := (-exponent).toNat
    if places < digits.length then
      digits.take (digits.length - places) ++ '.' :: digits.drop (digits.length - places)
    else
      '0' :: '.' :: List.replicate (places - digits.length) '0' ++ digits

/-- A decimal with one digit before the point and the exponent `lead` of that digit. -/
def scientificText (digits : List Char) (lead : Int) : List Char :=
  let fraction := match digits.tail with
    | [] => []
    | rest => '.' :: rest
  let sign := if lead < 0 then '-' else '+'
  digits.take 1 ++ fraction ++ 'e' :: sign :: digitsOf lead.natAbs

def magnitudeText (layout : Layout) (x : Binary64) : List Char :=
  let decimal := x.shortest layout.tie
  let digits := digitsOf decimal.digits
  let lead := decimal.exponent + digits.length - 1
  match layout.positional with
  | none => positionalText layout.pointZero digits decimal.exponent
  | some (least, greatest) =>
    if least ≤ lead ∧ lead ≤ greatest then
      positionalText layout.pointZero digits decimal.exponent
    else
      scientificText digits lead

def text (layout : Layout) (x : Binary64) : String :=
  if x.isNaN then "NaN"
  else
    let magnitude := if x.isInfinite then ['i', 'n', 'f'] else x.magnitudeText layout
    String.ofList (if x.negative then '-' :: magnitude else magnitude)

end Binary64

/-- A kind of number that can be read as a signed 64-bit integer, where it equals one, and always
as a double. -/
class Numeric (ν : Type) where
  toInt64? : ν → Option Int64
  toBinary64 : ν → Binary64

/-- A number of a document: an exact 64-bit integer, or a double for everything else. -/
inductive Number where
  | integer (n : Int64)
  | float (x : Binary64)
  deriving DecidableEq, Repr

namespace Number

def toInt64? : Number → Option Int64
  | .integer n => some n
  | .float x => x.toInt64?

def toBinary64 : Number → Binary64
  | .integer n => .ofInt n.toInt
  | .float x => x

instance : Numeric Number := ⟨toInt64?, toBinary64⟩

/-- Equality of values of one form: an integer never equals a double. -/
def equal : Number → Number → Bool
  | .integer m, .integer n => m = n
  | .float x, .float y => x.equal y
  | _, _ => false

def text : Number → String
  | .integer n => toString n.toInt
  | .float x => x.text .plain

end Number

end TreePath
