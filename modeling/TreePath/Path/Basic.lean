import TreePath.Number.Integer

/-!
Paths into a tree: segments joined by dots, each a property name followed by array positions, as in
`staff.groups[0][2].name`; and what can be wrong with the text of one.
-/

namespace TreePath

/-- A property looked up in an object, then positions looked up in nested arrays. -/
structure Segment where
  property : String
  indices : List UInt64
  deriving DecidableEq, Repr

namespace Segment

def isIndexed (s : Segment) : Bool := !s.indices.isEmpty

def indexChars (index : UInt64) : List Char := '[' :: Nat.toDigits 10 index.toNat ++ [']']

def chars (s : Segment) : List Char := s.property.toList ++ s.indices.flatMap indexChars

def text (s : Segment) : String := String.ofList s.chars

end Segment

structure Path where
  segments : List Segment
  nonempty : segments ≠ []
  deriving DecidableEq, Repr

namespace Path

/-- The path of the given segments, whatever their names. -/
def ofSegments? (segments : List Segment) : Option Path :=
  if h : segments ≠ [] then some ⟨segments, h⟩ else none

def length (p : Path) : Nat := p.segments.length

def chars (p : Path) : List Char := ['.'].intercalate (p.segments.map Segment.chars)

def text (p : Path) : String := String.ofList p.chars

def append (p q : Path) : Path where
  segments := p.segments ++ q.segments
  nonempty := by simp [p.nonempty]

instance : Append Path := ⟨append⟩

@[simp] theorem segments_append (p q : Path) : (p ++ q).segments = p.segments ++ q.segments := rfl

theorem ext_segments {p q : Path} (h : p.segments = q.segments) : p = q := by
  cases p; cases q; simp_all

theorem eq_iff_segments {p q : Path} : p = q ↔ p.segments = q.segments :=
  ⟨congrArg segments, ext_segments⟩

end Path

/-!
What can be wrong with the text of a path. Positions count characters from the start of the text.
-/

/-- What the reader would have gone on with. -/
inductive Expected where
  | propertyName
  | indexDigits
  | closingBracket
  | continuation
  deriving DecidableEq, Repr

def Expected.text : Expected → String
  | .propertyName => "property name"
  | .indexDigits => "array index digits"
  | .closingBracket => "']'"
  | .continuation => "'[', '.' or end of path"

inductive PathError where
  /-- A character that cannot stand where it does. -/
  | unexpected (position : Nat) (found : Char) (expected : Expected)
  /-- The text ends too early. -/
  | unexpectedEnd (expected : Expected)
  /-- The digits of an array position that fits no 64-bit word. -/
  | indexTooLarge (digits : String)
  deriving DecidableEq, Repr

namespace PathError

def detail : PathError → String
  | .unexpected position found expected =>
    "unexpected '" ++ found.toString ++ "' at position " ++ toString position ++ ", expected " ++
      expected.text
  | .unexpectedEnd expected => "unexpected end of path, expected " ++ expected.text
  | .indexTooLarge digits => "array index " ++ digits ++ " is too large"

def message (e : PathError) : String := "invalid path syntax: " ++ e.detail

/-- The same fault in a text that has `count` more characters in front. -/
def shift (count : Nat) : PathError → PathError
  | .unexpected position found expected => .unexpected (position + count) found expected
  | e => e

end PathError

end TreePath
