import TreePath.Number.Integer

/-!
Quoted TOML strings, read and written. A string is written between double quotes, with escapes, or
between single quotes, without any; between three quotes it may run over several lines.
-/

namespace TreePath

namespace Toml

def isSpace (c : Char) : Bool := c = ' ' || c = '\t'

/-- The characters that may stand for themselves on a line: all but the control characters other
than tab. -/
def isLineChar (c : Char) : Bool := c = '\t' || (0x20 ≤ c.toNat && c.toNat ≠ 0x7f)

inductive Mark where
  | double
  | single
  deriving DecidableEq, Repr

namespace Mark

def char : Mark → Char
  | .double => '"'
  | .single => '\''

def escapes : Mark → Bool
  | .double => true
  | .single => false

end Mark

def unescape? : Char → Option Char
  | 'b' => some '\x08'
  | 't' => some '\t'
  | 'n' => some '\n'
  | 'f' => some '\x0c'
  | 'r' => some '\r'
  | '"' => some '"'
  | '\\' => some '\\'
  | _ => none

/-- Where a reader stands in a string on one line. -/
inductive LineMode where
  | plain
  | escape
  /-- Hexadecimal digits of a code point are missing. -/
  | code (missing : Nat) (value : Nat)
  deriving DecidableEq, Repr

/-- The code point with one digit more: either complete, or with digits missing. -/
def nextDigit? (missing value : Nat) (c : Char) : Option (Char ⊕ Nat) :=
  (hexDigit? c).bind fun digit =>
    let value := 16 * value + digit
    if missing ≤ 1 then (scalar? value).map .inl else some (.inr value)

/-- Reads a string on one line; the characters read so far are held latest first. -/
def readLine (mark : Mark) (read : List Char) : LineMode → List Char → Option (List Char × List Char)
  | _, [] => none
  | .plain, c :: rest =>
    if c = mark.char then some (read.reverse, rest)
    else if mark.escapes && c = '\\' then readLine mark read .escape rest
    else if isLineChar c then readLine mark (c :: read) .plain rest
    else none
  | .escape, c :: rest =>
    if c = 'u' then readLine mark read (.code 4 0) rest
    else if c = 'U' then readLine mark read (.code 8 0) rest
    else
      match unescape? c with
      | some d => readLine mark (d :: read) .plain rest
      | none => none
  | .code missing value, c :: rest =>
    match nextDigit? missing value c with
    | some (.inl d) => readLine mark (d :: read) .plain rest
    | some (.inr value) => readLine mark read (.code (missing - 1) value) rest
    | none => none

inductive BlockMode where
  | plain
  /-- A run of quotation marks, which may turn out to close the string. -/
  | marks (count : Nat)
  /-- A line feed has to follow. -/
  | carriage
  | escape
  | code (missing : Nat) (value : Nat)
  /-- Behind a backslash that ends its line; a line feed has to come. -/
  | lineEnd
  | lineEndCarriage
  /-- The blank start of the line that follows. -/
  | trim
  | trimCarriage
  deriving DecidableEq, Repr

/-- Takes a character of the text itself: the characters read and the mode from now on. -/
def plainStep (mark : Mark) (read : List Char) (c : Char) : Option (List Char × BlockMode) :=
  if c = mark.char then some (read, .marks 1)
  else if mark.escapes && c = '\\' then some (read, .escape)
  else if c = '\n' then some ('\n' :: read, .plain)
  else if c = '\r' then some (read, .carriage)
  else if isLineChar c then some (c :: read, .plain)
  else none

/-- Takes a character in any mode but in a run of quotation marks. -/
def blockStep (mark : Mark) (read : List Char) (c : Char) : BlockMode → Option (List Char × BlockMode)
  | .plain | .marks _ => plainStep mark read c
  | .carriage => if c = '\n' then some ('\n' :: read, .plain) else none
  | .escape =>
    if c = 'u' then some (read, .code 4 0)
    else if c = 'U' then some (read, .code 8 0)
    else if isSpace c then some (read, .lineEnd)
    else if c = '\n' then some (read, .trim)
    else if c = '\r' then some (read, .lineEndCarriage)
    else (unescape? c).map fun d => (d :: read, .plain)
  | .code missing value =>
    (nextDigit? missing value c).map fun
      | .inl d => (d :: read, .plain)
      | .inr value => (read, .code (missing - 1) value)
  | .lineEnd =>
    if isSpace c then some (read, .lineEnd)
    else if c = '\n' then some (read, .trim)
    else if c = '\r' then some (read, .lineEndCarriage)
    else none
  | .lineEndCarriage | .trimCarriage => if c = '\n' then some (read, .trim) else none
  | .trim =>
    if isSpace c || c = '\n' then some (read, .trim)
    else if c = '\r' then some (read, .trimCarriage)
    else plainStep mark read c

/-- Reads a string over several lines. A run of three to five marks closes it, and the first marks
of the run, all but three, belong to the text. -/
def readBlock (mark : Mark) (read : List Char) :
    BlockMode → List Char → Option (List Char × List Char)
  | .marks count, [] =>
    if 3 ≤ count then some ((List.replicate (count - 3) mark.char ++ read).reverse, []) else none
  | .marks count, c :: rest =>
    if c = mark.char then
      if count < 5 then readBlock mark read (.marks (count + 1)) rest else none
    else if 3 ≤ count then
      some ((List.replicate (count - 3) mark.char ++ read).reverse, c :: rest)
    else
      match plainStep mark (List.replicate count mark.char ++ read) c with
      | some (read, mode) => readBlock mark read mode rest
      | none => none
  | _, [] => none
  | mode, c :: rest =>
    match blockStep mark read c mode with
    | some (read, mode) => readBlock mark read mode rest
    | none => none

/-- The line break right behind three opening quotes does not belong to the text. -/
def dropFirstBreak : List Char → List Char
  | '\n' :: rest => rest
  | '\r' :: '\n' :: rest => rest
  | cs => cs

def readQuoted (mark : Mark) (cs : List Char) : Option (List Char × List Char) :=
  match cs with
  | a :: b :: rest =>
    if a = mark.char ∧ b = mark.char then readBlock mark [] .plain (dropFirstBreak rest)
    else readLine mark [] .plain cs
  | _ => readLine mark [] .plain cs

/-!
Writing TOML strings. Among the four ways to quote, the first that needs no escape is taken; where
every way needs one, the string is escaped between double quotes.
-/

/-- The length of the longest run of a character, where a run of `run` goes before. -/
def longestRun (c : Char) : List Char → Nat → Nat
  | [], run => run
  | d :: rest, run => if d = c then longestRun c rest (run + 1) else max run (longestRun c rest 0)

/-- A control character other than a tab or a line feed. -/
def isControl (c : Char) : Bool := (c.toNat < 0x20 && c ≠ '\t' && c ≠ '\n') || c.toNat = 0x7f

inductive Quoting where
  | line (mark : Mark)
  | block (mark : Mark)
  deriving DecidableEq, Repr

def quoting (cs : List Char) : Quoting :=
  let control := cs.any isControl
  let breaks := cs.contains '\n'
  if !control && !breaks && !cs.contains '\\' && !cs.contains '"' then .line .double
  else if !control && !breaks && !cs.contains '\'' then .line .single
  else if !control && !cs.contains '\\' && longestRun '"' cs 0 ≤ 2 then .block .double
  else if !control && longestRun '\'' cs 0 ≤ 2 then .block .single
  else if breaks then .block .double
  else .line .double

/-- A character between double quotes, other than the quotation mark. Over several lines a line
feed stands for itself. -/
def escapeChar (block : Bool) (c : Char) : List Char :=
  match c with
  | '\x08' => ['\\', 'b']
  | '\t' => ['\\', 't']
  | '\n' => if block then ['\n'] else ['\\', 'n']
  | '\x0c' => ['\\', 'f']
  | '\r' => ['\\', 'r']
  | '\\' => ['\\', '\\']
  | _ => if isControl c then '\\' :: 'u' :: (hexChars 4 c.toNat).map Char.toUpper else [c]

/-- The text between double quotes. So many quotation marks may stand together unescaped; `marks`
counts those that stand right in front. -/
def escaped (block : Bool) (allowed : Nat) : Nat → List Char → List Char
  | _, [] => []
  | marks, c :: rest =>
    if c = '"' then
      if marks < allowed then '"' :: escaped block allowed (marks + 1) rest
      else '\\' :: '"' :: escaped block allowed 0 rest
    else escapeChar block c ++ escaped block allowed 0 rest

/-- The line break behind three opening quotes, which does not belong to the string. It is written
where the string has line breaks of its own. -/
def firstBreak (cs : List Char) : List Char := if cs.contains '\n' then ['\n'] else []

def quotedChars (cs : List Char) : List Char :=
  match quoting cs with
  | .line .double => '"' :: escaped false 0 0 cs ++ ['"']
  | .line .single => '\'' :: cs ++ ['\'']
  | .block .double => ['"', '"', '"'] ++ firstBreak cs ++ escaped true 2 0 cs ++ ['"', '"', '"']
  | .block .single => ['\'', '\'', '\''] ++ firstBreak cs ++ cs ++ ['\'', '\'', '\'']

end Toml

end TreePath
