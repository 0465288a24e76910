import TreePath.Json.Number

/-!
Reading JSON text. The scanner takes one character at a time, gives tokens and knows nothing of
nesting; the builder takes one token at a time and holds the containers that are still open.
-/

namespace TreePath

namespace Json

inductive Token (ν : Type) where
  | arrayStart
  | arrayEnd
  | objectStart
  | objectEnd
  | comma
  | colon
  | null
  | boolean (b : Bool)
  | number (n : ν)
  | string (s : String)
  deriving DecidableEq, Repr

namespace Token

def mapNumber? {ν μ : Type} (f : ν → Option μ) : Token ν → Option (Token μ)
  | .arrayStart => some .arrayStart
  | .arrayEnd => some .arrayEnd
  | .objectStart => some .objectStart
  | .objectEnd => some .objectEnd
  | .comma => some .comma
  | .colon => some .colon
  | .null => some .null
  | .boolean b => some (.boolean b)
  | .number n => (f n).map .number
  | .string s => some (.string s)

end Token

/-- Space, tab, line feed and carriage return. -/
def isBlank (c : Char) : Bool := c = ' ' || c = '\t' || c = '\n' || c = '\r'

def isNumberChar (c : Char) : Bool :=
  c.isDigit || c = '-' || c = '+' || c = '.' || c = 'e' || c = 'E'

def unescape? : Char → Option Char
  | '"' => some '"'
  | '\\' => some '\\'
  | '/' => some '/'
  | 'b' => some '\x08'
  | 'f' => some '\x0c'
  | 'n' => some '\n'
  | 'r' => some '\r'
  | 't' => some '\t'
  | _ => none

def isHighSurrogate (unit : Nat) : Bool := 0xD800 ≤ unit && unit < 0xDC00

def isLowSurrogate (unit : Nat) : Bool := 0xDC00 ≤ unit && unit < 0xE000

def pairCode (high low : Nat) : Nat := 0x10000 + (high - 0xD800) * 0x400 + (low - 0xDC00)

/-- Where the scanner stands. The characters of an unfinished token are held latest first. -/
inductive Mode where
  | between
  /-- Letters of a word are missing before its token is complete. -/
  | word (missing : List Char) (token : Token Literal)
  | number (chars : List Char)
  | text (chars : List Char)
  | escape (chars : List Char)
  /-- Hexadecimal digits of a unit are missing; a high surrogate may have gone before. -/
  | unit (chars : List Char) (high : Option Nat) (missing : Nat) (value : Nat)
  /-- The backslash of a low surrogate is missing. -/
  | pair (chars : List Char) (high : Nat)
  /-- The letter of a low surrogate is missing. -/
  | pairLetter (chars : List Char) (high : Nat)
  deriving DecidableEq, Repr

/-- The scanner: the finished tokens, latest first, and the place in the current one. -/
structure Scan where
  finished : List (Token Literal)
  mode : Mode
  deriving DecidableEq, Repr

namespace Scan

def initial : Scan := ⟨[], .between⟩

def start (finished : List (Token Literal)) (c : Char) : Option Scan :=
  if isBlank c then some ⟨finished, .between⟩
  else if c.isDigit || c = '-' then some ⟨finished, .number [c]⟩
  else match c with
    | '[' => some ⟨.arrayStart :: finished, .between⟩
    | ']' => some ⟨.arrayEnd :: finished, .between⟩
    | '{' => some ⟨.objectStart :: finished, .between⟩
    | '}' => some ⟨.objectEnd :: finished, .between⟩
    | ',' => some ⟨.comma :: finished, .between⟩
    | ':' => some ⟨.colon :: finished, .between⟩
    | '"' => some ⟨finished, .text []⟩
    | 'n' => some ⟨finished, .word ['u', 'l', 'l'] .null⟩
    | 't' => some ⟨finished, .word ['r', 'u', 'e'] (.boolean true)⟩
    | 'f' => some ⟨finished, .word ['a', 'l', 's', 'e'] (.boolean false)⟩
    | _ => none

def endNumber (finished : List (Token Literal)) (chars : List Char) :
    Option (List (Token Literal)) :=
  (Literal.ofChars? chars.reverse).map fun literal => .number literal :: finished

/-- What follows a complete unit: a character, or the wait for a low surrogate. A surrogate that
stands alone is refused. -/
def endUnit (chars : List Char) (high : Option Nat) (unit : Nat) : Option Mode :=
  match high with
  | none =>
    if isHighSurrogate unit then some (.pair chars unit)
    else (scalar? unit).map fun c => .text (c :: chars)
  | some high =>
    if isLowSurrogate unit then (scalar? (pairCode high unit)).map fun c => .text (c :: chars)
    else none

def step (s : Scan) (c : Char) : Option Scan :=
  match s.mode with
  | .between => start s.finished c
  | .word [] _ => none
  | .word (expected :: missing) token =>
    if c = expected then
      some (if missing = [] then ⟨token :: s.finished, .between⟩
        else ⟨s.finished, .word missing token⟩)
    else none
  | .number chars =>
    if isNumberChar c then some ⟨s.finished, .number (c :: chars)⟩
    else (endNumber s.finished chars).bind fun finished => start finished c
  | .text chars =>
    if c = '"' then some ⟨.string (String.ofList chars.reverse) :: s.finished, .between⟩
    else if c = '\\' then some ⟨s.finished, .escape chars⟩
    else if c.toNat < 0x20 then none
    else some ⟨s.finished, .text (c :: chars)⟩
  | .escape chars =>
    if c = 'u' then some ⟨s.finished, .unit chars none 4 0⟩
    else (unescape? c).map fun d => ⟨s.finished, .text (d :: chars)⟩
  | .unit chars high missing value =>
    (hexDigit? c).bind fun digit =>
      let value := 16 * value + digit
      if missing ≤ 1 then (endUnit chars high value).map fun mode => ⟨s.finished, mode⟩
      else some ⟨s.finished, .unit chars high (missing - 1) value⟩
  | .pair chars high => if c = '\\' then some ⟨s.finished, .pairLetter chars high⟩ else none
  | .pairLetter chars high =>
    if c = 'u' then some ⟨s.finished, .unit chars (some high) 4 0⟩ else none

def finish (s : Scan) : Option (List (Token Literal)) :=
  match s.mode with
  | .between => some s.finished.reverse
  | .number chars => (endNumber s.finished chars).map List.reverse
  | _ => none

end Scan

def tokens? (text : String) : Option (List (Token Literal)) :=
  (text.toList.foldlM Scan.step Scan.initial).bind Scan.finish

def maxDepth : Nat := 127

/-- A container that waits for a value. -/
inductive Pending (ν : Type) where
  /-- The earlier items, latest first. -/
  | item (items : List (Tree ν))
  | member (entries : Entries ν) (key : String)

/-- Where the builder stands, with the open containers around it, innermost first. -/
inductive Place (ν : Type) where
  /-- A value has to come. -/
  | value (outer : List (Pending ν))
  | firstItem (outer : List (Pending ν))
  | afterItem (items : List (Tree ν)) (outer : List (Pending ν))
  | firstKey (outer : List (Pending ν))
  | nextKey (entries : Entries ν) (outer : List (Pending ν))
  | colon (entries : Entries ν) (key : String) (outer : List (Pending ν))
  | afterMember (entries : Entries ν) (outer : List (Pending ν))
  /-- The whole value is there. -/
  | complete (t : Tree ν)

namespace Place

variable {ν : Type}

/-- Hands a finished value to the container that waits for it. A repeated key keeps its first
place and takes its last value. -/
def accept (t : Tree ν) : List (Pending ν) → Place ν
  | [] => .complete t
  | .item items :: outer => .afterItem (t :: items) outer
  | .member entries key :: outer => .afterMember (Entries.insert key t entries) outer

def start (outer : List (Pending ν)) : Token ν → Option (Place ν)
  | .null => some (accept .null outer)
  | .boolean b => some (accept (.boolean b) outer)
  | .number n => some (accept (.number n) outer)
  | .string s => some (accept (.string s) outer)
  | .arrayStart => if outer.length < maxDepth then some (.firstItem outer) else none
  | .objectStart => if outer.length < maxDepth then some (.firstKey outer) else none
  | _ => none

def step : Place ν → Token ν → Option (Place ν)
  | .value outer, token => start outer token
  | .firstItem outer, .arrayEnd => some (accept (.array []) outer)
  | .firstItem outer, token => start (.item [] :: outer) token
  | .afterItem items outer, .comma => some (.value (.item items :: outer))
  | .afterItem items outer, .arrayEnd => some (accept (.array items.reverse) outer)
  | .firstKey outer, .objectEnd => some (accept (.object []) outer)
  | .firstKey outer, .string key => some (.colon [] key outer)
  | .nextKey entries outer, .string key => some (.colon entries key outer)
  | .colon entries key outer, .colon => some (.value (.member entries key :: outer))
  | .afterMember entries outer, .comma => some (.nextKey entries outer)
  | .afterMember entries outer, .objectEnd => some (accept (.object entries) outer)
  | _, _ => none

def result? : Place ν → Option (Tree ν)
  | .complete t => some t
  | _ => none

end Place

def build? {ν : Type} (tokens : List (Token ν)) : Option (Tree ν) :=
  (tokens.foldlM Place.step (.value [])).bind Place.result?

/-- The tree of a text, with its numbers as they are spelled. -/
def literals? (text : String) : Option (Tree Literal) := (tokens? text).bind build?

def read? (text : String) : Option Value :=
  ((tokens? text).bind fun tokens => tokens.mapM (Token.mapNumber? Literal.number?)).bind build?

end Json

end TreePath
