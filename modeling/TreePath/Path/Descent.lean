import TreePath.Path.Reader

/-!
Reading a path by descent, with one function for each part of the grammar. Every function checks
what it relies on, also where its caller has made sure of it, and says in words what it expected.
-/

namespace TreePath

namespace Path

namespace Descent

inductive Fault where
  | unexpected (position : Nat) (found : Char) (expected : String)
  | unexpectedEnd (expected : String)
  | invalid (message : String)
  deriving DecidableEq, Repr

theorem bind_eq_ok_iff {α β : Type} {x : Except Fault α} {f : α → Except Fault β} {b : β} :
    x >>= f = .ok b ↔ ∃ a, x = .ok a ∧ f a = .ok b := by
  cases x <;> simp [bind, Except.bind]

theorem map_eq_ok_iff {α β : Type} {x : Except Fault α} {f : α → β} {b : β} :
    x.map f = .ok b ↔ ∃ a, x = .ok a ∧ f a = b := by
  cases x <;> simp [Except.map]

/-- What is left of a text, from `position` on. -/
structure Rest where
  position : Nat
  chars : List Char
  deriving DecidableEq, Repr

namespace Rest

def next (r : Rest) : Rest := ⟨r.position + 1, r.chars.tail⟩

def skip (r : Rest) (p : Char → Bool) : Rest :=
  ⟨r.position + (r.chars.takeWhile p).length, r.chars.dropWhile p⟩

def refuse (r : Rest) (expected : String) : Fault :=
  match r.chars with
  | c :: _ => .unexpected r.position c expected
  | [] => .unexpectedEnd expected

def expect (r : Rest) (c : Char) : Except Fault Rest :=
  if r.chars.head? = some c then .ok r.next else .error (r.refuse ("'" ++ c.toString ++ "'"))

def take (r : Rest) (p : Char → Bool) (expected : String) : Except Fault (List Char × Rest) :=
  if r.chars.takeWhile p = [] then .error ((r.skip p).refuse expected)
  else .ok (r.chars.takeWhile p, r.skip p)

def name (r : Rest) : Except Fault (List Char × Rest) :=
  r.take (fun c => c ≠ '.' && c ≠ '[') "property name"

/-- A position in brackets; its value is looked at last. -/
def index (r : Rest) : Except Fault (UInt64 × Rest) := do
  let opened ← r.expect '['
  let (digits, rest) ← opened.take Char.isDigit "array index digits"
  let closed ← rest.expect ']'
  match uint64? (digitsValue digits) with
  | some index => .ok (index, closed)
  | none => .error (.invalid ("array index " ++ String.ofList digits ++ " is too large"))

theorem expect_eq_ok_iff {r rest : Rest} {c : Char} :
    r.expect c = .ok rest ↔ r.chars.head? = some c ∧ rest = r.next := by
  unfold expect
  split <;> simp_all [eq_comm]

theorem length_expect {r rest : Rest} {c : Char} (h : r.expect c = .ok rest) :
    rest.chars.length < r.chars.length := by
  obtain ⟨hhead, rfl⟩ := expect_eq_ok_iff.1 h
  obtain ⟨tail, htail⟩ := List.head?_eq_some_iff.1 hhead
  simp [next, htail]

theorem take_eq_ok_iff {r rest : Rest} {p : Char → Bool} {expected : String} {taken : List Char} :
    r.take p expected = .ok (taken, rest) ↔
      taken ≠ [] ∧ taken = r.chars.takeWhile p ∧ rest = r.skip p := by
  unfold take
  split
  · next h =>
    constructor
    · intro h
      contradiction
    · rintro ⟨nonempty, rfl, -⟩
      contradiction
  · next h =>
    simp only [Except.ok.injEq, Prod.mk.injEq]
    constructor
    · rintro ⟨rfl, rfl⟩
      exact ⟨h, rfl, rfl⟩
    · rintro ⟨-, rfl, rfl⟩
      exact ⟨rfl, rfl⟩

theorem length_take {r rest : Rest} {p : Char → Bool} {expected : String} {taken : List Char}
    (h : r.take p expected = .ok (taken, rest)) : rest.chars.length ≤ r.chars.length := by
  obtain ⟨-, -, rfl⟩ := take_eq_ok_iff.1 h
  exact (List.dropWhile_sublist p).length_le

theorem length_index {r rest : Rest} {i : UInt64} (h : r.index = .ok (i, rest)) :
    rest.chars.length < r.chars.length := by
  obtain ⟨opened, hopened, h⟩ := bind_eq_ok_iff.1 h
  obtain ⟨⟨digits, last⟩, hdigits, h⟩ := bind_eq_ok_iff.1 h
  obtain ⟨closed, hclosed, h⟩ := bind_eq_ok_iff.1 h
  have hopen := length_expect hopened
  have htake := length_take hdigits
  have hclose := length_expect hclosed
  split at h
  · obtain ⟨-, rfl⟩ := Prod.mk.inj (Except.ok.inj h)
    omega
  · contradiction

def indices (r : Rest) : Except Fault (List UInt64 × Rest) :=
  if r.chars.head? = some '[' then
    match _h : r.index with
    | .ok (i, rest) => rest.indices.map fun more => (i :: more.1, more.2)
    | .error e => .error e
  else .ok ([], r)
termination_by r.chars.length
decreasing_by exact length_index _h

theorem length_indices {r rest : Rest} {is : List UInt64} (h : r.indices = .ok (is, rest)) :
    rest.chars.length ≤ r.chars.length := by
  fun_induction indices r generalizing is with
  | case1 r _ i next hindex ih =>
    obtain ⟨more, hmore, hpair⟩ := map_eq_ok_iff.1 h
    obtain ⟨-, rfl⟩ := Prod.mk.inj hpair
    have hlt := length_index hindex
    have hle := ih hmore
    omega
  | case2 r _ e _ => contradiction
  | case3 r _ =>
    obtain ⟨-, rfl⟩ := Prod.mk.inj (Except.ok.inj h)
    exact Nat.le_refl _

/-- A name and its positions, behind which only a dot or the end may stand. -/
def segment (r : Rest) : Except Fault (Segment × Rest) := do
  let (letters, named) ← r.name
  let (indices, rest) ← named.indices
  if rest.chars.head? = none ∨ rest.chars.head? = some '.' then
    .ok (⟨String.ofList letters, indices⟩, rest)
  else .error (rest.refuse "'[', '.' or end of path")

theorem length_segment {r rest : Rest} {s : Segment} (h : r.segment = .ok (s, rest)) :
    rest.chars.length ≤ r.chars.length := by
  obtain ⟨⟨letters, named⟩, hname, h⟩ := bind_eq_ok_iff.1 h
  obtain ⟨⟨indices, last⟩, hindices, h⟩ := bind_eq_ok_iff.1 h
  dsimp only at h
  split at h
  · obtain ⟨-, rfl⟩ := Prod.mk.inj (Except.ok.inj h)
    exact Nat.le_trans (length_indices hindices) (length_take hname)
  · contradiction

def segments (r : Rest) : Except Fault (List Segment) :=
  match _h : r.segment with
  | .error e => .error e
  | .ok (s, rest) =>
    match _hrest : rest.chars with
    | [] => .ok [s]
    | c :: _ =>
      if c = '.' then rest.next.segments.map (s :: ·)
      else .error (.unexpected rest.position c "'.'")
termination_by r.chars.length
decreasing_by
  have hle := length_segment _h
  rw [_hrest, List.length_cons] at hle
  simp only [next, _hrest, List.tail_cons]
  omega

end Rest

def assemble (segments : List Segment) : Except Fault Path :=
  match ofSegments? segments with
  | some p => .ok p
  | none => .error (.invalid "path has no segments")

def read (text : String) : Except Fault Path := do
  let segments ← Rest.segments ⟨0, text.toList⟩
  assemble segments

end Descent

end Path

end TreePath
