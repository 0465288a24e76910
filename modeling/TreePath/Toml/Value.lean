import TreePath.Number.Binary64
import TreePath.Number.Integer

/-!
Values of TOML, and the statements that a TOML text consists of.
-/

namespace TreePath

namespace Toml

inductive Value where
  | string (s : String)
  | integer (n : Int64)
  | float (x : Binary64)
  | boolean (b : Bool)
  /-- A date, a time or both, as written. -/
  | datetime (text : String)
  | array (items : List Value)
  | table (entries : List (String × Value))
  deriving Repr

abbrev Table := List (String × Value)

/-- A line of TOML text, or several where its value runs on. A key is a list of its parts. -/
inductive Statement where
  | entry (key : List String) (value : Value)
  /-- Opens a table. -/
  | table (key : List String)
  /-- Opens the next table of an array. -/
  | item (key : List String)
  deriving Repr

/-!
TOML values that are written without quotes or brackets: integers, floats, truth values, dates and
times. Each reader takes a whole run of characters.
-/

def isRunChar (c : Char) : Bool :=
  c.isAlphanum || c = '_' || c = '+' || c = '-' || c = '.' || c = ':'

/-- Digits without the underscores between them; each underscore has a digit on both sides. -/
def ungroup? (isDigit : Char → Bool) : List Char → Option (List Char)
  | [] => none
  | [c] => if isDigit c then some [c] else none
  | c :: '_' :: rest => if isDigit c then (ungroup? isDigit rest).map (c :: ·) else none
  | c :: rest => if isDigit c then (ungroup? isDigit rest).map (c :: ·) else none

def takeSign : List Char → Bool × List Char
  | '-' :: rest => (true, rest)
  | '+' :: rest => (false, rest)
  | cs => (false, cs)

def wholeDigits? (cs : List Char) : Option (List Char) :=
  (ungroup? Char.isDigit cs).filter fun digits => digits.length = 1 || digits.head? ≠ some '0'

def radixValue? (base : Nat) (cs : List Char) : Option Nat := do
  let digits ← ungroup? (fun c => (hexDigit? c).any (· < base)) cs
  let values ← digits.mapM hexDigit?
  some (values.foldl (fun n d => base * n + d) 0)

def integer? (run : List Char) : Option Int64 :=
  match run with
  | '0' :: 'x' :: digits => (radixValue? 16 digits).bind fun n => int64? n
  | '0' :: 'o' :: digits => (radixValue? 8 digits).bind fun n => int64? n
  | '0' :: 'b' :: digits => (radixValue? 2 digits).bind fun n => int64? n
  | _ =>
    let (negative, digits) := takeSign run
    (wholeDigits? digits).bind fun digits =>
      int64? (if negative then -(digitsValue digits : Int) else digitsValue digits)

def exponent? (cs : List Char) : Option Int :=
  let (negative, digits) := takeSign cs
  (ungroup? Char.isDigit digits).map fun digits =>
    if negative then -(digitsValue digits : Int) else digitsValue digits

def isExponentMark (c : Char) : Bool := c = 'e' || c = 'E'

/-- A decimal with a fraction, an exponent or both, rounded to a double. One that is too large is
refused, unless it is negative. -/
def decimal? (negative : Bool) (cs : List Char) : Option Binary64 := do
  let (mantissa, power) := cs.span fun c => !isExponentMark c
  let (whole, fraction) := mantissa.span fun c => c ≠ '.'
  guard (power ≠ [] ∨ fraction ≠ [])
  let whole ← wholeDigits? whole
  let fraction ← if fraction = [] then some [] else ungroup? Char.isDigit fraction.tail
  let exponent ← if power = [] then some 0 else exponent? power.tail
  let x := Binary64.ofDecimal negative (digitsValue (whole ++ fraction)) (exponent - fraction.length)
  if x.isFinite || negative then some x else none

def float? (run : List Char) : Option Binary64 :=
  let (negative, cs) := takeSign run
  if cs = ['i', 'n', 'f'] then some (.ofMagnitudeBits negative Binary64.infinityBits)
  else if cs = ['n', 'a', 'n'] then
    some (.ofMagnitudeBits negative (Binary64.infinityBits + 0x8000000000000))
  else decimal? negative cs

def twoDigits? (low high : Nat) (a b : Char) : Option Nat :=
  if a.isDigit && b.isDigit then
    let n := digitsValue [a, b]
    if low ≤ n ∧ n ≤ high then some n else none
  else none

def isLeapYear (year : Nat) : Bool := year % 4 = 0 && (year % 100 ≠ 0 || year % 400 = 0)

def daysInMonth (year month : Nat) : Nat :=
  if month = 2 then if isLeapYear year then 29 else 28
  else if month = 4 ∨ month = 6 ∨ month = 9 ∨ month = 11 then 30
  else 31

def afterDate? : List Char → Option (List Char)
  | y :: y' :: y'' :: y''' :: '-' :: m :: m' :: '-' :: d :: d' :: rest => do
    let year := [y, y', y'', y''']
    guard (year.all Char.isDigit)
    let month ← twoDigits? 1 12 m m'
    let _ ← twoDigits? 1 (daysInMonth (digitsValue year) month) d d'
    some rest
  | _ => none

def afterTime? : List Char → Option (List Char)
  | h :: h' :: ':' :: m :: m' :: ':' :: s :: s' :: rest => do
    let _ ← twoDigits? 0 23 h h'
    let _ ← twoDigits? 0 59 m m'
    let _ ← twoDigits? 0 60 s s'
    match rest with
    | '.' :: digits =>
      guard ((digits.takeWhile Char.isDigit) ≠ [])
      some (digits.dropWhile Char.isDigit)
    | _ => some rest
  | _ => none

/-- Whether the characters are an offset from universal time, or nothing. -/
def isOffset : List Char → Bool
  | [] | ['Z'] | ['z'] => true
  | [sign, h, h', ':', m, m'] =>
    (sign = '+' || sign = '-') && (twoDigits? 0 23 h h').isSome && (twoDigits? 0 59 m m').isSome
  | _ => false

/-- Whether the characters are a date, a time, or a date and a time with or without an offset. -/
def isDatetime (run : List Char) : Bool :=
  match afterDate? run with
  | some [] => true
  | some (mark :: time) =>
    (mark = 'T' || mark = 't' || mark = ' ') && (afterTime? time).any isOffset
  | none => afterTime? run = some []

def scalar (run : List Char) : Option Value :=
  if run = ['t', 'r', 'u', 'e'] then some (.boolean true)
  else if run = ['f', 'a', 'l', 's', 'e'] then some (.boolean false)
  else if isDatetime run then some (.datetime (String.ofList run))
  else
    match integer? run with
    | some n => some (.integer n)
    | none => (float? run).map .float

/-- Reads a value without quotes or brackets. A blank may stand between a date and a time. -/
def readScalar (cs : List Char) : Option (Value × List Char) :=
  let (run, rest) := cs.span isRunChar
  match rest with
  | ' ' :: more =>
    let (time, behind) := more.span isRunChar
    if afterDate? run = some [] ∧ time.head?.any Char.isDigit then
      (scalar (run ++ ' ' :: time)).map (·, behind)
    else (scalar run).map (·, rest)
  | _ => (scalar run).map (·, rest)

end Toml

end TreePath
