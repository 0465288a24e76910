import TreePath.Json.Number

/-!
Writing JSON text, on one line or indented.
-/

namespace TreePath

namespace Json

inductive Style where
  | compact
  | indented
  deriving DecidableEq, Repr

namespace Style

/-- The line break before an item that is nested `depth` deep; two spaces a level. -/
def lineBreak (depth : Nat) : Style → List Char
  | .compact => []
  | .indented => '\n' :: List.replicate (2 * depth) ' '

def colon : Style → List Char
  | .compact => [':']
  | .indented => [':', ' ']

end Style

/-- A character inside quotes: a short escape where there is one, `\u` and four digits for the
other control characters below the space, and all else as it is. -/
def escapeChar (c : Char) : List Char :=
  match c with
  | '"' => ['\\', '"']
  | '\\' => ['\\', '\\']
  | '\x08' => ['\\', 'b']
  | '\x0c' => ['\\', 'f']
  | '\n' => ['\\', 'n']
  | '\r' => ['\\', 'r']
  | '\t' => ['\\', 't']
  | _ => if c.toNat < 0x20 then '\\' :: 'u' :: hexChars 4 c.toNat else [c]

def quote (s : String) : List Char := '"' :: s.toList.flatMap escapeChar ++ ['"']

mutual

def Value.chars (style : Style) (depth : Nat) : Tree Number → List Char
  | .null => ['n', 'u', 'l', 'l']
  | .boolean true => ['t', 'r', 'u', 'e']
  | .boolean false => ['f', 'a', 'l', 's', 'e']
  | .number n => n.text
  | .string s => quote s
  | .array [] => ['[', ']']
  | .array items => '[' :: itemsChars style (depth + 1) items ++ (style.lineBreak depth ++ [']'])
  | .object [] => ['{', '}']
  | .object entries =>
    '{' :: entriesChars style (depth + 1) entries ++ (style.lineBreak depth ++ ['}'])

def itemsChars (style : Style) (depth : Nat) : List (Tree Number) → List Char
  | [] => []
  | t :: rest =>
    style.lineBreak depth ++ Value.chars style depth t ++
      (if rest.isEmpty then [] else ',' :: itemsChars style depth rest)

def entriesChars (style : Style) (depth : Nat) : List (String × Tree Number) → List Char
  | [] => []
  | (key, t) :: rest =>
    style.lineBreak depth ++ quote key ++ style.colon ++ Value.chars style depth t ++
      (if rest.isEmpty then [] else ',' :: entriesChars style depth rest)

end

def write (style : Style) (v : Value) : String := String.ofList (Value.chars style 0 v)

end Json

end TreePath
