import TreePath.Number.Integer
import TreePath.Path.Basic

/-!
Reading a path in one pass. The reader is a machine that takes one character at a time, so that a fault
is found at the first character that no path could have there.
-/

namespace TreePath

namespace Path

/-- Where the reader stands in the current segment. Names, positions and digits that were read are
held latest first. -/
inductive Cursor where
  | start
  | name (name : List Char)
  | bracket (name : List Char) (indices : List UInt64)
  | digits (name : List Char) (indices : List UInt64) (digits : List Char)
  | closed (name : List Char) (indices : List UInt64)
  deriving DecidableEq, Repr

/-- The reader: the finished segments, latest first, and the place in the current one. -/
structure Reading where
  finished : List Segment
  cursor : Cursor
  deriving DecidableEq, Repr

namespace Reading

def initial : Reading := ⟨[], .start⟩

/-- The segment of the given name and positions, both latest first. -/
def segment (name : List Char) (indices : List UInt64) : Segment :=
  ⟨String.ofList name.reverse, indices.reverse⟩

def step (r : Reading) (position : Nat) (c : Char) : Except PathError Reading :=
  let refuse (expected : Expected) := Except.error (.unexpected position c expected)
  match r.cursor with
  | .start => if c = '.' ∨ c = '[' then refuse .propertyName else .ok { r with cursor := .name [c] }
  | .name name =>
    if c = '.' then .ok ⟨segment name [] :: r.finished, .start⟩
    else if c = '[' then .ok { r with cursor := .bracket name [] }
    else .ok { r with cursor := .name (c :: name) }
  | .bracket name indices =>
    if c.isDigit then .ok { r with cursor := .digits name indices [c] } else refuse .indexDigits
  | .digits name indices digits =>
    if c.isDigit then .ok { r with cursor := .digits name indices (c :: digits) }
    else if c = ']' then
      match uint64? (digitsValue digits.reverse) with
      | some index => .ok { r with cursor := .closed name (index :: indices) }
      | none => .error (.indexTooLarge (String.ofList digits.reverse))
    else refuse .closingBracket
  | .closed name indices =>
    if c = '[' then .ok { r with cursor := .bracket name indices }
    else if c = '.' then .ok ⟨segment name indices :: r.finished, .start⟩
    else refuse .continuation

def complete (last : Segment) (finished : List Segment) : Path :=
  ⟨(last :: finished).reverse, by simp⟩

def finish (r : Reading) : Except PathError Path :=
  match r.cursor with
  | .name name => .ok (complete (segment name []) r.finished)
  | .closed name indices => .ok (complete (segment name indices) r.finished)
  | .start => .error (.unexpectedEnd .propertyName)
  | .bracket .. => .error (.unexpectedEnd .indexDigits)
  | .digits .. => .error (.unexpectedEnd .closingBracket)

/-- Takes all characters that are left, the first of them at `position`. -/
def run (r : Reading) (position : Nat) : List Char → Except PathError Path
  | [] => r.finish
  | c :: cs =>
    match r.step position c with
    | .ok next => next.run (position + 1) cs
    | .error e => .error e

end Reading

def read (text : String) : Except PathError Path := Reading.initial.run 0 text.toList

/-!
The grammar of paths, said without the reader: split the text at its dots; each piece is a name
without an opening bracket, followed by bracketed runs of digits that fit a 64-bit word.
-/

/-- The pieces of a text between its dots; a text without dots is one piece. -/
def pieces : List Char → List (List Char)
  | [] => [[]]
  | c :: cs =>
    if c = '.' then [] :: pieces cs
    else match pieces cs with
      | [] => [[c]]
      | piece :: rest => (c :: piece) :: rest

/-- Bracketed array positions, one after the other. -/
inductive IsSuffixes : List Char → List UInt64 → Prop where
  | none : IsSuffixes [] []
  | more (digits rest : List Char) (index : UInt64) (indices : List UInt64)
      (nonempty : digits ≠ []) (decimal : ∀ c ∈ digits, c.isDigit)
      (value : digitsValue digits = index.toNat) (tail : IsSuffixes rest indices) :
      IsSuffixes ('[' :: digits ++ ']' :: rest) (index :: indices)

/-- A name and its array positions. -/
inductive IsPiece : List Char → Segment → Prop where
  | intro (name suffixes : List Char) (indices : List UInt64) (nonempty : name ≠ [])
      (plain : '[' ∉ name) (tail : IsSuffixes suffixes indices) :
      IsPiece (name ++ suffixes) ⟨String.ofList name, indices⟩

/-- Piece by piece, the text spells the segments. -/
inductive Spells : List (List Char) → List Segment → Prop where
  | nil : Spells [] []
  | cons (piece : List Char) (segment : Segment) (pieces : List (List Char))
      (segments : List Segment) (head : IsPiece piece segment) (tail : Spells pieces segments) :
      Spells (piece :: pieces) (segment :: segments)

/-- The text is a way to write the path. -/
def Denotes (text : String) (path : Path) : Prop := Spells (pieces text.toList) path.segments

end Path

end TreePath
