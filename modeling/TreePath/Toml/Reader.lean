import TreePath.Toml.Quoted
import TreePath.Toml.Table
import TreePath.Toml.Value

/-!
Reading TOML text, version 1.0. A reader takes characters and gives what it read with the
characters behind it.
-/

namespace TreePath

namespace Toml

/-- Values may be nested this deep, and a key may have as many parts. -/
def maxDepth : Nat := 79

def skipSpaces (cs : List Char) : List Char := cs.dropWhile isSpace

def isBareChar (c : Char) : Bool := c.isAlphanum || c = '-' || c = '_'

def readKeyPart (cs : List Char) : Option (String × List Char) :=
  match cs with
  | '"' :: rest => (readLine .double [] .plain rest).map fun r => (String.ofList r.1, r.2)
  | '\'' :: rest => (readLine .single [] .plain rest).map fun r => (String.ofList r.1, r.2)
  | _ =>
    let (name, rest) := cs.span isBareChar
    if name = [] then none else some (String.ofList name, rest)

/-- A key of at most so many parts, joined by dots. Spaces around it and its dots are skipped. -/
def readKey : Nat → List Char → Option (List String × List Char)
  | 0, _ => none
  | parts + 1, cs =>
    match readKeyPart (skipSpaces cs) with
    | none => none
    | some (part, rest) =>
      match skipSpaces rest with
      | '.' :: rest => (readKey parts rest).map fun r => (part :: r.1, r.2)
      | rest => some ([part], rest)

/-- Skips spaces, line breaks and comments; inside of a comment, up to the end of its line. -/
def skipBlank (inComment : Bool) : List Char → Option (List Char)
  | [] => some []
  | '\r' :: '\n' :: rest => skipBlank false rest
  | c :: rest =>
    if c = '\n' then skipBlank false rest
    else if inComment then if isLineChar c then skipBlank true rest else none
    else if isSpace c then skipBlank false rest
    else if c = '#' then skipBlank true rest
    else some (c :: rest)

/-- The end of a statement: spaces, a comment if there is one, then a line break or the end. -/
def endLine (cs : List Char) : Option (List Char) :=
  let rest := match skipSpaces cs with
    | '#' :: comment => comment.dropWhile isLineChar
    | rest => rest
  match rest with
  | [] => some []
  | '\n' :: rest => some rest
  | '\r' :: '\n' :: rest => some rest
  | _ => none

/-- The items of an array and its closing bracket; the items read so far are held latest first. -/
def readItems (value : List Char → Option (Value × List Char)) :
    Nat → List Value → List Char → Option (Value × List Char)
  | 0, _, _ => none
  | fuel + 1, items, cs =>
    match skipBlank false cs with
    | some (']' :: rest) => some (.array items.reverse, rest)
    | some cs =>
      match value cs with
      | none => none
      | some (item, rest) =>
        match skipBlank false rest with
        | some (',' :: rest) => readItems value fuel (item :: items) rest
        | some (']' :: rest) => some (.array (item :: items).reverse, rest)
        | _ => none
    | none => none

def readEntry (value : List Char → Option (Value × List Char)) (cs : List Char) :
    Option ((List String × Value) × List Char) :=
  match readKey maxDepth cs with
  | some (key, '=' :: rest) => (value (skipSpaces rest)).map fun r => ((key, r.1), r.2)
  | _ => none

/-- The entries between braces and the closing brace; no line may break between them. -/
def readEntries (value : List Char → Option (Value × List Char)) :
    Nat → List (List String × Value) → List Char → Option (Value × List Char)
  | 0, _, _ => none
  | fuel + 1, entries, cs =>
    match readEntry value cs with
    | none => none
    | some (entry, rest) =>
      match skipSpaces rest with
      | ',' :: rest => readEntries value fuel (entry :: entries) rest
      | '}' :: rest =>
        (Table.ofEntries? (entry :: entries).reverse).map fun table => (.table table, rest)
      | _ => none

/-- A value whose arrays and tables are nested at most so deep. -/
def readValue : Nat → List Char → Option (Value × List Char)
  | _, '"' :: rest => (readQuoted .double rest).map fun r => (.string (String.ofList r.1), r.2)
  | _, '\'' :: rest => (readQuoted .single rest).map fun r => (.string (String.ofList r.1), r.2)
  | 0, cs => readScalar cs
  | depth + 1, '[' :: rest => readItems (readValue depth) rest.length.succ [] rest
  | depth + 1, '{' :: rest =>
    match skipSpaces rest with
    | '}' :: rest => some (.table [], rest)
    | rest => readEntries (readValue depth) rest.length.succ [] rest
  | _ + 1, cs => readScalar cs

def readHeader (closing : List Char) (cs : List Char) : Option (List String × List Char) :=
  match readKey maxDepth cs with
  | some (key, rest) =>
    if rest.take closing.length = closing then some (key, rest.drop closing.length) else none
  | none => none

def readStatement : List Char → Option (Statement × List Char)
  | '[' :: '[' :: rest => (readHeader [']', ']'] rest).map fun r => (.item r.1, r.2)
  | '[' :: rest => (readHeader [']'] rest).map fun r => (.table r.1, r.2)
  | cs => (readEntry (readValue maxDepth) cs).map fun r => (.entry r.1.1 r.1.2, r.2)

/-- All statements of a text; those read so far are held latest first. -/
def readStatements : Nat → List Statement → List Char → Option (List Statement)
  | 0, _, _ => none
  | fuel + 1, statements, cs =>
    match skipBlank false cs with
    | none => none
    | some [] => some statements.reverse
    | some cs =>
      match readStatement cs with
      | none => none
      | some (statement, rest) =>
        match endLine rest with
        | none => none
        | some rest => readStatements fuel (statement :: statements) rest

/-- A byte order mark in front of the text is skipped. -/
def dropMark : List Char → List Char
  | '\uFEFF' :: rest => rest
  | cs => cs

def statements? (text : String) : Option (List Statement) :=
  let cs := dropMark text.toList
  readStatements (cs.length + 1) [] cs

def read? (text : String) : Option Table := (statements? text).bind Table.ofStatements?

end Toml

end TreePath
