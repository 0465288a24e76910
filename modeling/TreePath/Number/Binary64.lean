import TreePath.Number.Integer

/-!
Double-precision numbers as their 64 bits, with exact integer arithmetic.

The magnitude of a finite number is counted in units of 2^-1074, the smallest positive number, so
that every finite number is a whole count of units and no rounding hides in a definition. `nearest`
is the one place where a quotient is rounded, to the nearest number and on a tie to the even one.
-/

namespace TreePath

/-- A double-precision number, given by its bit pattern. -/
structure Binary64 where
  bits : UInt64
  deriving DecidableEq, Repr

namespace Binary64

instance : Inhabited Binary64 := ⟨⟨0⟩⟩

def negative (x : Binary64) : Bool := 0x8000000000000000 ≤ x.bits.toNat

def exponentField (x : Binary64) : Nat := x.bits.toNat >>> 52 % 0x800

def fractionField (x : Binary64) : Nat := x.bits.toNat % 0x10000000000000

def low (x : Binary64) : Nat := x.bits.toNat % 0x8000000000000000

def isFinite (x : Binary64) : Bool := x.exponentField < 2047

def isInfinite (x : Binary64) : Bool := x.exponentField = 2047 && x.fractionField = 0

def isNaN (x : Binary64) : Bool := x.exponentField = 2047 && x.fractionField ≠ 0

/-- The significand as a whole number, with its leading one where there is one. -/
def significand (x : Binary64) : Nat :=
  if x.exponentField = 0 then x.fractionField else 0x10000000000000 + x.fractionField

/-- The power of two that scales the significand to units of 2^-1074. -/
def scale (x : Binary64) : Nat := x.exponentField - 1

/-- The units that make up the number one. -/
def unitsPerOne : Nat := 1 <<< 1074

/-- The magnitude of a finite number, in units of 2^-1074. -/
def units (x : Binary64) : Nat := x.significand <<< x.scale

/-- The exact value of a finite number, in units of 2^-1074. -/
def signedUnits (x : Binary64) : Int := if x.negative then -x.units else x.units

/-- Equality of values: both zeros are equal, and a NaN equals nothing. -/
def equal (x y : Binary64) : Bool :=
  !x.isNaN && !y.isNaN && (x.bits = y.bits || (x.isFinite && y.isFinite && x.units = 0 && y.units = 0))

/-- The order of finite numbers and infinities is that of their low bits, with the sign. -/
def rank (x : Binary64) : Int := if x.negative then -x.low else x.low

/-- Whether a number is at most another; a NaN never is. -/
def le (x y : Binary64) : Bool := !x.isNaN && !y.isNaN && x.rank ≤ y.rank

def lt (x y : Binary64) : Bool := !x.isNaN && !y.isNaN && x.rank < y.rank

/-- The signed 64-bit integer that is left without what is behind the point. What is out of range
becomes the least or the greatest word, and a NaN becomes zero. -/
def toInt64 (x : Binary64) : Int64 :=
  if x.isNaN then 0
  else if x.isInfinite then if x.negative then Int64.minValue else Int64.maxValue
  else .ofInt (max Int64.minValue.toInt
    (min Int64.maxValue.toInt (x.signedUnits.tdiv unitsPerOne)))

/-- The whole number nearest to `num / den`; on a tie the even one. -/
def roundHalfEven (num den : Nat) : Nat :=
  let q := num / den
  let twice := 2 * (num % den)
  if den < twice || (den = twice && q % 2 = 1) then q + 1 else q

/-- The bits below the sign of the number nearest to `num / den`, before overflow is looked at.
A significand that rounds up to 2^53 carries into the exponent field by plain addition. -/
def nearestBits (num den : Nat) : Nat :=
  let units := num * unitsPerOne
  let scale := Nat.log2 (units / den) - 52
  roundHalfEven units (den <<< scale) + scale <<< 52

def infinityBits : Nat := 2047 <<< 52

def ofMagnitudeBits (negative : Bool) (low : Nat) : Binary64 :=
  ⟨UInt64.ofNat (if negative then 0x8000000000000000 + low else low)⟩

/-- The number nearest to `num / den`, with the given sign; too large a quotient gives infinity. -/
def nearest (negative : Bool) (num den : Nat) : Binary64 :=
  ofMagnitudeBits negative (min (nearestBits num den) infinityBits)

def ofInt (n : Int) : Binary64 := nearest (n < 0) n.natAbs 1

def zero : Binary64 := ⟨0⟩

def nan : Binary64 := ⟨0x7FF8000000000000⟩

/-- What is behind the point, with the sign of the number unless it is zero. -/
def fract (x : Binary64) : Binary64 :=
  if x.isFinite then
    let rest := x.units % unitsPerOne
    nearest (x.negative && rest ≠ 0) rest unitsPerOne
  else nan

/-- The signed 64-bit integer that a number equals, if it equals one. The greatest such integer is
rounded up to 2^63, which is out of range itself. -/
def toInt64? (x : Binary64) : Option Int64 :=
  if x.fract.equal zero && (ofInt Int64.minValue.toInt).le x && x.lt (ofInt Int64.maxValue.toInt) then
    some x.toInt64
  else none

/-- The number nearest to `mantissa * 10 ^ exponent`, with the given sign. Exponents far outside
the range of the format are settled first, without computing the power. -/
def ofDecimal (negative : Bool) (mantissa : Nat) (exponent : Int) : Binary64 :=
  if mantissa = 0 ∨ exponent < -(400 + Nat.log2 mantissa : Int) then ofMagnitudeBits negative 0
  else if 400 < exponent then ofMagnitudeBits negative infinityBits
  else if 0 ≤ exponent then nearest negative (mantissa * Nat.pow 10 exponent.toNat) 1
  else nearest negative mantissa (Nat.pow 10 (-exponent).toNat)

end Binary64

/-!
The shortest decimal that reads back as a given number.

All reals that round to the number form an interval around it, and the ends belong to it when the
significand is even. Decimal grids are tried from the coarsest on; the first one with a point in
the interval wins, and of two such points the nearer. Only an exact tie is left to the caller.
-/

structure Decimal where
  digits : Nat
  exponent : Int
  deriving DecidableEq, Repr

inductive Tie where
  | toEven
  | upward
  deriving DecidableEq, Repr

namespace Binary64

/-- The reals that round to a number, in quarters of 2^-1074. -/
structure Interval where
  low : Nat
  high : Nat
  closed : Bool
  deriving Repr

/-- The step below a power of two is half the step above it. -/
def interval (x : Binary64) : Interval where
  low := 4 * x.units -
    (if x.fractionField = 0 ∧ 1 < x.exponentField then 1 <<< x.scale else 2 <<< x.scale)
  high := 4 * x.units + 2 <<< x.scale
  closed := x.significand % 2 = 0

/-- Whether `point / unit` lies in the interval scaled by `factor`. -/
def Interval.holds (i : Interval) (factor unit point : Nat) : Bool :=
  if i.closed then i.low * factor ≤ point * unit && point * unit ≤ i.high * factor
  else i.low * factor < point * unit && point * unit < i.high * factor

/-- The nearer of the two neighbours of `num / den`, where both are to be had. -/
def nearerNeighbour (tie : Tie) (num den : Nat) : Nat :=
  let below := num / den
  let twice := 2 * (num % den)
  if twice < den then below
  else if den < twice then below + 1
  else match tie with
    | .toEven => if below % 2 = 0 then below else below + 1
    | .upward => below + 1

/-- The point of the grid of step `10 ^ exponent` that stands for the number, if one does. -/
def onGrid? (tie : Tie) (x : Binary64) (exponent : Int) : Option Nat :=
  let factor := Nat.pow 10 (-exponent).toNat
  let step := 4 * unitsPerOne * Nat.pow 10 exponent.toNat
  let value := 4 * x.units * factor
  let below := value / step
  match x.interval.holds factor step below, x.interval.holds factor step (below + 1) with
  | true, true => some (nearerNeighbour tie value step)
  | true, false => some below
  | false, true => some (below + 1)
  | false, false => none

/-- Tries `count` grids, each ten times finer than the one before. -/
def firstGrid (tie : Tie) (x : Binary64) : Nat → Int → Decimal
  | 0, exponent => ⟨0, exponent⟩
  | count + 1, exponent =>
    match x.onGrid? tie exponent with
    | some digits => ⟨digits, exponent⟩
    | none => firstGrid tie x count (exponent - 1)

/-- An exponent whose power of ten exceeds the number: 0.30103 is just above the decimal logarithm
of two. -/
def coarsest (x : Binary64) : Int := ((Nat.log2 x.units : Int) - 1073) * 30103 / 100000 + 2

/-- The shortest decimal for the magnitude of a finite number. Seventeen digits always suffice,
and the first grid lies at most three places above the leading digit. -/
def shortest (tie : Tie) (x : Binary64) : Decimal :=
  if x.units = 0 then ⟨0, 0⟩ else firstGrid tie x 24 x.coarsest

end Binary64

end TreePath
