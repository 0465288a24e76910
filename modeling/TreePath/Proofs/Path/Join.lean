import TreePath.Proofs.Path.Feed

/-!
Texts joined by a dot. Behind the dot the reader starts anew, so that what follows is read as it would
be alone, with its faults shifted; and a fault that was found is not undone by what follows it.
-/

namespace TreePath

namespace Path

namespace Reading

def onto (r : Reading) (earlier : List Segment) : Reading := ⟨r.finished ++ earlier, r.cursor⟩

/-- A step takes no notice of earlier segments, and of the position only in its fault. -/
theorem step_onto (r : Reading) (earlier : List Segment) (position count : Nat) (c : Char) :
    (r.onto earlier).step (position + count) c =
      ((r.step position c).map (·.onto earlier)).mapError (·.shift count) := by
  obtain ⟨finished, cursor⟩ := r
  cases cursor with
  | start =>
    simp only [onto, step]
    split <;> rfl
  | name letters =>
    simp only [onto, step]
    split
    · rfl
    · split <;> rfl
  | bracket letters indices =>
    simp only [onto, step]
    split <;> rfl
  | digits letters indices run =>
    simp only [onto, step]
    split
    · rfl
    · split
      · cases uint64? (digitsValue run.reverse) <;> rfl
      · rfl
  | closed letters indices =>
    simp only [onto, step]
    split
    · rfl
    · split <;> rfl

theorem finish_onto (r : Reading) {earlier : List Segment} {p : Path}
    (hp : p.segments = earlier.reverse) (count : Nat) :
    (r.onto earlier).finish = (r.finish.map (p ++ ·)).mapError (·.shift count) := by
  have hcomplete (last : Segment) :
      complete last (r.finished ++ earlier) = p ++ complete last r.finished := by
    rw [eq_iff_segments]
    simp [complete, hp]
  obtain ⟨finished, cursor⟩ := r
  cases cursor with
  | name letters => exact congrArg Except.ok (hcomplete _)
  | closed letters indices => exact congrArg Except.ok (hcomplete _)
  | _ => rfl

/-- A run takes no notice of earlier segments, which stand in front of the path that it gives, and
of the position only in its fault. -/
theorem run_onto (r : Reading) {earlier : List Segment} {p : Path}
    (hp : p.segments = earlier.reverse) (position count : Nat) (cs : List Char) :
    (r.onto earlier).run (position + count) cs =
      ((r.run position cs).map (p ++ ·)).mapError (·.shift count) := by
  induction cs generalizing r position with
  | nil => exact r.finish_onto hp count
  | cons c cs ih =>
    simp only [run, step_onto]
    cases r.step position c with
    | error e => rfl
    | ok next =>
      have hposition : position + count + 1 = position + 1 + count := by omega
      rw [hposition]
      exact ih next (position + 1)

/-- Where a text may end, a dot finishes the path of the text and starts another. -/
theorem step_dot_of_finish {r : Reading} {p : Path} (h : r.finish = .ok p) (position : Nat) :
    ∃ earlier, p.segments = earlier.reverse ∧ r.step position '.' = .ok (initial.onto earlier) := by
  obtain ⟨s, hs, hp⟩ := (r.finish_eq_ok_iff p).1 h
  refine ⟨s :: r.finished, by simpa using hp, ?_⟩
  exact (r.step_dot position _).2 ⟨s, hs, rfl⟩

/-- Where a text breaks off, a dot is refused for the reason for which the end is. -/
theorem step_dot_of_unfinished {r : Reading} {e : PathError} (h : r.finish = .error e)
    (position : Nat) : ∃ expected, e = .unexpectedEnd expected ∧
      r.step position '.' = .error (.unexpected position '.' expected) := by
  obtain ⟨finished, cursor⟩ := r
  cases cursor with
  | name letters => contradiction
  | closed letters indices => contradiction
  | _ => exact ⟨_, (Except.error.inj h).symm, by simp [step]⟩

end Reading

/-- A fault of a text, unless it is a missing end, is the fault of every text that goes on with it. -/
theorem read_append_of_fault {s : String} {e : PathError} (h : read s = .error e)
    (hend : ∀ expected, e ≠ .unexpectedEnd expected) (t : String) :
    read (s ++ t) = .error e := by
  rw [read_eq_feed] at h
  rw [read_append_eq]
  cases hfeed : Reading.initial.feed 0 s.toList with
  | error e' =>
    rw [hfeed] at h
    exact h
  | ok r =>
    rw [hfeed] at h
    obtain ⟨expected, he, -⟩ := Reading.step_dot_of_unfinished h 0
    exact absurd he (hend expected)

/-- Behind a text that is read and a dot, a text is read as it would be alone, onto the path before
it and with its faults shifted. -/
theorem read_join_of_read {s : String} {q : Path} (h : read s = .ok q) (t : String) :
    read (s ++ "." ++ t) = ((read t).map (q ++ ·)).mapError (·.shift (s.length + 1)) := by
  rw [read_eq_feed] at h
  rw [String.append_assoc, read_append_eq]
  cases hfeed : Reading.initial.feed 0 s.toList with
  | error e =>
    rw [hfeed] at h
    contradiction
  | ok r =>
    rw [hfeed] at h
    obtain ⟨earlier, hq, hdot⟩ := Reading.step_dot_of_finish h s.length
    have hrun := Reading.run_onto .initial hq 0 (s.length + 1) t.toList
    rw [Nat.zero_add] at hrun
    have htext : ("." ++ t).toList = '.' :: t.toList := by simp
    simp only [Except.bind, htext, Reading.run, hdot]
    exact hrun

/-- Behind a text that breaks off, a dot is refused. -/
theorem read_join_of_unfinished {s : String} {expected : Expected}
    (h : read s = .error (.unexpectedEnd expected)) (t : String) :
    read (s ++ "." ++ t) = .error (.unexpected s.length '.' expected) := by
  rw [read_eq_feed] at h
  rw [String.append_assoc, read_append_eq]
  cases hfeed : Reading.initial.feed 0 s.toList with
  | error e =>
    rw [hfeed] at h
    have hne := Reading.initial.feed_ne_unexpectedEnd 0 s.toList expected
    rw [hfeed] at hne
    exact absurd (congrArg Except.error (Except.error.inj h)) hne
  | ok r =>
    rw [hfeed] at h
    obtain ⟨other, hother, hdot⟩ := Reading.step_dot_of_unfinished h s.length
    obtain rfl := PathError.unexpectedEnd.inj hother
    have htext : ("." ++ t).toList = '.' :: t.toList := by simp
    simp only [Except.bind, htext, Reading.run, hdot]

/-- Two texts joined by a dot are read exactly where both are, as one path after the other. A fault
of the second is shifted behind the first; a fault of the first, unless it is a missing end, is also
the fault of every text that begins with it. -/
theorem read_joined (s t : String) :
    (∀ p, read (s ++ "." ++ t) = .ok p ↔ ∃ q r, read s = .ok q ∧ read t = .ok r ∧
      p.segments = q.segments ++ r.segments) ∧
    (∀ q e, read s = .ok q → read t = .error e →
      read (s ++ "." ++ t) = .error (e.shift (s.length + 1))) ∧
    (∀ expected, read s = .error (.unexpectedEnd expected) →
      read (s ++ "." ++ t) = .error (.unexpected s.length '.' expected)) ∧
    ∀ e, read s = .error e → (∀ expected, e ≠ .unexpectedEnd expected) →
      ∀ u, read (s ++ u) = .error e := by
  refine ⟨?_, ?_, ?_, ?_⟩
  · intro p
    constructor
    · intro h
      cases hs : read s with
      | error e =>
        by_cases hend : ∃ expected, e = .unexpectedEnd expected
        · obtain ⟨expected, rfl⟩ := hend
          rw [read_join_of_unfinished hs] at h
          contradiction
        · have hfault := read_append_of_fault hs (not_exists.1 hend) ("." ++ t)
          rw [← String.append_assoc, h] at hfault
          contradiction
      | ok q =>
        rw [read_join_of_read hs] at h
        cases ht : read t with
        | error e =>
          rw [ht] at h
          contradiction
        | ok r =>
          rw [ht] at h
          exact ⟨q, r, rfl, rfl, congrArg segments (Except.ok.inj h).symm⟩
    · rintro ⟨q, r, hs, ht, hp⟩
      rw [read_join_of_read hs, ht, eq_iff_segments.2 (hp.trans (segments_append q r).symm)]
      rfl
  · intro q e hs ht
    rw [read_join_of_read hs, ht]
    rfl
  · intro expected hs
    exact read_join_of_unfinished hs t
  · intro e hs hend u
    exact read_append_of_fault hs hend u

/-- Characters are counted, not bytes: the fault is the eighth character of the joined text. -/
theorem read_joined_shifted :
    (read "é[0]" = .ok ⟨[⟨"é", [0]⟩], by simp⟩ ∧
      read "b[x" = .error (.unexpected 2 'x' .indexDigits) ∧
      read "é[0].b[x" = .error (.unexpected 7 'x' .indexDigits)) ∧
    ∀ u, read ("b[x" ++ u) = .error (.unexpected 2 'x' .indexDigits) := by
  have hs : read "é[0]" = .ok ⟨[⟨"é", [0]⟩], by simp⟩ := by decide +kernel
  have ht : read "b[x" = .error (.unexpected 2 'x' .indexDigits) := by decide +kernel
  exact ⟨⟨hs, ht, (read_joined "é[0]" "b[x").2.1 _ _ hs ht⟩,
    (read_joined "b[x" "").2.2.2 _ ht (by simp)⟩

end Path

end TreePath
