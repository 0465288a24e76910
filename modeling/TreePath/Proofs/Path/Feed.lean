import TreePath.Proofs.Path.Reader

/-!
The reader part of the way. A run over two parts of a text is a run over the first, and then one over
the second from where the reader stands between them.
-/

namespace TreePath

namespace Path

namespace Reading

/-- The reader after more characters, the first of them at `position`. -/
def feed (r : Reading) (position : Nat) : List Char → Except PathError Reading
  | [] => .ok r
  | c :: cs =>
    match r.step position c with
    | .ok next => next.feed (position + 1) cs
    | .error e => .error e

theorem feed_append (r : Reading) (position : Nat) (cs ds : List Char) :
    r.feed position (cs ++ ds) =
      (r.feed position cs).bind fun next => next.feed (position + cs.length) ds := by
  induction cs generalizing r position with
  | nil => rfl
  | cons c cs ih =>
    simp only [List.cons_append, feed]
    cases r.step position c with
    | error e => rfl
    | ok next =>
      have hposition : position + (c :: cs).length = position + 1 + cs.length := by
        rw [List.length_cons]
        omega
      rw [hposition]
      exact ih next (position + 1)

theorem run_eq_feed (r : Reading) (position : Nat) (cs : List Char) :
    r.run position cs = (r.feed position cs).bind finish := by
  induction cs generalizing r position with
  | nil => rfl
  | cons c cs ih =>
    simp only [run, feed]
    cases r.step position c with
    | error e => rfl
    | ok next => exact ih next (position + 1)

theorem run_append (r : Reading) (position : Nat) (cs ds : List Char) :
    r.run position (cs ++ ds) =
      (r.feed position cs).bind fun next => next.run (position + cs.length) ds := by
  rw [run_eq_feed, feed_append]
  cases r.feed position cs with
  | error e => rfl
  | ok next => exact (next.run_eq_feed _ ds).symm

/-- A step never finds the text too short. -/
theorem step_ne_unexpectedEnd (r : Reading) (position : Nat) (c : Char) (expected : Expected) :
    r.step position c ≠ .error (.unexpectedEnd expected) := by
  obtain ⟨finished, cursor⟩ := r
  cases cursor <;> simp only [step] <;> (repeat' split) <;> simp

theorem feed_ne_unexpectedEnd (r : Reading) (position : Nat) (cs : List Char)
    (expected : Expected) : r.feed position cs ≠ .error (.unexpectedEnd expected) := by
  induction cs generalizing r position with
  | nil => simp [feed]
  | cons c cs ih =>
    simp only [feed]
    cases h : r.step position c with
    | error e =>
      have hne := r.step_ne_unexpectedEnd position c expected
      rwa [h] at hne
    | ok next => exact ih next (position + 1)

/-- Letters that neither dot nor bracket divides belong to one name. -/
theorem feed_letters (finished : List Segment) (letters : List Char) (position : Nat)
    {more : List Char} (plain : ∀ c ∈ more, c ≠ '.' ∧ c ≠ '[') :
    feed ⟨finished, .name letters⟩ position more =
      .ok ⟨finished, .name (more.reverse ++ letters)⟩ := by
  induction more generalizing letters position with
  | nil => rfl
  | cons c more ih =>
    obtain ⟨⟨hdot, hbracket⟩, plain⟩ := List.forall_mem_cons.1 plain
    simp [feed, step, hdot, hbracket, ih _ _ plain]

/-- Digits belong to one position. -/
theorem feed_digits (finished : List Segment) (letters : List Char) (indices : List UInt64)
    (digits : List Char) (position : Nat) {more : List Char} (decimal : ∀ c ∈ more, c.isDigit) :
    feed ⟨finished, .digits letters indices digits⟩ position more =
      .ok ⟨finished, .digits letters indices (more.reverse ++ digits)⟩ := by
  induction more generalizing digits position with
  | nil => rfl
  | cons c more ih =>
    obtain ⟨hc, decimal⟩ := List.forall_mem_cons.1 decimal
    simp [feed, step, hc, ih _ _ decimal]

/-- An opening bracket and digits are a position that is not closed yet. -/
theorem feed_position (finished : List Segment) (letters : List Char) (indices : List UInt64)
    (position : Nat) {digits : List Char} (nonempty : digits ≠ [])
    (decimal : ∀ c ∈ digits, c.isDigit) :
    feed ⟨finished, .bracket letters indices⟩ position digits =
      .ok ⟨finished, .digits letters indices digits.reverse⟩ := by
  obtain ⟨c, digits, rfl⟩ := List.exists_cons_of_ne_nil nonempty
  obtain ⟨hc, decimal⟩ := List.forall_mem_cons.1 decimal
  simp [feed, step, hc, feed_digits finished letters indices [c] _ decimal]

end Reading

/-- What the reader makes of a text is what it makes of the end, where it takes all characters. -/
theorem read_eq_feed (text : String) :
    read text = (Reading.initial.feed 0 text.toList).bind Reading.finish :=
  Reading.initial.run_eq_feed 0 text.toList

theorem read_append_eq (s t : String) :
    read (s ++ t) = (Reading.initial.feed 0 s.toList).bind fun r => r.run s.length t.toList := by
  rw [read, String.toList_append, Reading.run_append, Nat.zero_add, String.length_toList]

end Path

end TreePath
