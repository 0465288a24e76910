import TreePath.Proofs.Path.Descent
import TreePath.Proofs.Path.Place

/-!
Faults are found as early as can be. The reader refuses the first character that no text of the
grammar could have there, and says what the grammar has at that place; it misses an end where a text
of the grammar breaks off; and a position that no word holds is found where it is closed.
-/

namespace TreePath

def Expected.place : Expected → Path.Place
  | .propertyName => .start
  | .indexDigits => .bracket
  | .closingBracket => .digits
  | .continuation => .closed

theorem Expected.place_injective {e e' : Expected} (h : e.place = e'.place) : e = e' := by
  cases e <;> cases e' <;> first | rfl | contradiction

namespace Path

/-- The digits are the first position of the text that no word holds: the text in front of them
denotes a path, so that a word holds every position there. -/
def FirstOversized (cs digits : List Char) : Prop :=
  ∃ before after p, cs = before ++ '[' :: digits ++ ']' :: after ∧
    Denotes (String.ofList before) p ∧ IsRun digits ∧ UInt64.size ≤ digitsValue digits

/-- Whether a position of the text is held by no word. -/
def Oversized (cs : List Char) : Prop := ∃ digits, FirstOversized cs digits

theorem uint64?_eq_none_iff (n : Nat) : uint64? n = none ↔ UInt64.size ≤ n := by
  rw [Option.eq_none_iff_forall_ne_some]
  constructor
  · intro h
    by_contra hlt
    exact h (UInt64.ofNat n) (uint64?_eq_some_iff.2 (UInt64.toNat_ofNat_of_lt' (by simpa using hlt)))
  · intro h w hw
    have hvalue := uint64?_eq_some_iff.1 hw
    have hlt := UInt64.toNat_lt_size w
    omega

def Cursor.place : Cursor → Place
  | .start => .start
  | .name _ => .name
  | .bracket .. => .bracket
  | .digits .. => .digits
  | .closed .. => .closed

namespace Reading

/-- All that a step can do: go on to the next place, refuse a character that has none, or close a
position that no word holds. -/
theorem step_cases (r : Reading) (position : Nat) (c : Char) :
    (∃ next, r.step position c = .ok next ∧ r.cursor.place.next? c = some next.cursor.place) ∨
    (∃ expected : Expected, r.step position c = .error (.unexpected position c expected) ∧
      r.cursor.place.next? c = none ∧ r.cursor.place = expected.place) ∨
    (∃ letters indices digits, r.cursor = .digits letters indices digits ∧ c = ']' ∧
      UInt64.size ≤ digitsValue digits.reverse ∧
      r.step position c = .error (.indexTooLarge (String.ofList digits.reverse))) := by
  obtain ⟨finished, cursor⟩ := r
  cases cursor with
  | start =>
    by_cases hc : c = '.' ∨ c = '['
    · exact .inr (.inl ⟨.propertyName, by simp [step, Cursor.place, Place.next?, Expected.place, hc]⟩)
    · exact .inl (by simp [step, Cursor.place, Place.next?, hc])
  | name letters =>
    by_cases hdot : c = '.'
    · exact .inl (by simp [step, Cursor.place, Place.next?, hdot])
    · by_cases hopen : c = '[' <;>
        exact .inl (by simp [step, Cursor.place, Place.next?, hdot, hopen])
  | bracket letters indices =>
    by_cases hc : c.isDigit
    · exact .inl (by simp [step, Cursor.place, Place.next?, hc])
    · exact .inr (.inl ⟨.indexDigits, by simp [step, Cursor.place, Place.next?, Expected.place, hc]⟩)
  | digits letters indices digits =>
    by_cases hc : c.isDigit
    · exact .inl (by simp [step, Cursor.place, Place.next?, hc])
    · by_cases hclose : c = ']'
      · subst hclose
        cases hi : uint64? (digitsValue digits.reverse) with
        | some index => exact .inl (by simp [step, Cursor.place, Place.next?, hi])
        | none =>
          exact .inr (.inr ⟨letters, indices, digits, rfl, rfl, (uint64?_eq_none_iff _).1 hi,
            by simp [step, hi]⟩)
      · exact .inr (.inl ⟨.closingBracket,
          by simp [step, Cursor.place, Place.next?, Expected.place, hc, hclose]⟩)
  | closed letters indices =>
    by_cases hopen : c = '['
    · exact .inl (by simp [step, Cursor.place, Place.next?, hopen])
    · by_cases hdot : c = '.'
      · exact .inl (by simp [step, Cursor.place, Place.next?, hdot])
      · exact .inr (.inl ⟨.continuation,
          by simp [step, Cursor.place, Place.next?, Expected.place, hopen, hdot]⟩)

/-- The end is taken where a text may end, and missed everywhere else. -/
theorem finish_cases (r : Reading) :
    ((∃ p, r.finish = .ok p) ∧ r.cursor.place.ends = true) ∨
    (∃ expected : Expected, r.finish = .error (.unexpectedEnd expected) ∧
      r.cursor.place.ends = false ∧ r.cursor.place = expected.place) := by
  obtain ⟨finished, cursor⟩ := r
  cases cursor with
  | start => exact .inr ⟨.propertyName, rfl, rfl, rfl⟩
  | name letters => exact .inl ⟨⟨_, rfl⟩, rfl⟩
  | bracket letters indices => exact .inr ⟨.indexDigits, rfl, rfl, rfl⟩
  | digits letters indices digits => exact .inr ⟨.closingBracket, rfl, rfl, rfl⟩
  | closed letters indices => exact .inl ⟨⟨_, rfl⟩, rfl⟩

/-- The reader goes from place to place as the grammar does. -/
theorem after?_of_feed {r next : Reading} {position : Nat} {cs : List Char}
    (h : r.feed position cs = .ok next) : r.cursor.place.after? cs = some next.cursor.place := by
  induction cs generalizing r position with
  | nil =>
    obtain rfl := Except.ok.inj h
    rfl
  | cons c cs ih =>
    rcases r.step_cases position c with ⟨after, hstep, hplace⟩ | ⟨expected, hstep, -⟩ |
      ⟨letters, indices, digits, -, -, -, hstep⟩
    · rw [feed, hstep] at h
      rw [Place.after?_cons, hplace]
      exact ih h
    all_goals
      rw [feed, hstep] at h
      contradiction

/-- A faulty text has a first character at which the reader stops. -/
theorem feed_eq_error_iff {r : Reading} {position : Nat} {cs : List Char} {e : PathError} :
    r.feed position cs = .error e ↔ ∃ before c after next, cs = before ++ c :: after ∧
      r.feed position before = .ok next ∧ next.step (position + before.length) c = .error e := by
  constructor
  · intro h
    induction cs generalizing r position with
    | nil => contradiction
    | cons c cs ih =>
      rw [feed] at h
      cases hstep : r.step position c with
      | error e' =>
        rw [hstep] at h
        exact ⟨[], c, cs, r, rfl, rfl, hstep.trans h⟩
      | ok next =>
        rw [hstep] at h
        obtain ⟨before, d, after, last, rfl, hfeed, hlast⟩ := ih h
        refine ⟨c :: before, d, after, last, rfl, by rw [feed, hstep]; exact hfeed, ?_⟩
        rw [List.length_cons, Nat.add_comm before.length, ← Nat.add_assoc]
        exact hlast
  · rintro ⟨before, c, after, next, rfl, hfeed, hstep⟩
    rw [feed_append, hfeed]
    simp only [Except.bind, feed, hstep]

end Reading

/-- The reader has taken all characters of a text that stands at a place of the grammar. -/
theorem stands_of_feed {cs : List Char} {r : Reading} (h : Reading.initial.feed 0 cs = .ok r) :
    r.cursor.place.Stands cs := Place.after?_eq_some_iff.1 (Reading.after?_of_feed h)

/-- The reader takes the characters of a text that denotes a path. -/
theorem feed_of_denotes {cs : List Char} {p : Path} (h : Denotes (String.ofList cs) p) :
    ∃ r, Reading.initial.feed 0 cs = .ok r ∧ r.finish = .ok p := by
  have hread := (read_eq_ok_iff_denotes _ _).2 h
  rw [read_eq_feed, String.toList_ofList] at hread
  cases hfeed : Reading.initial.feed 0 cs with
  | error e =>
    rw [hfeed] at hread
    contradiction
  | ok r =>
    rw [hfeed] at hread
    exact ⟨r, rfl, hread⟩

theorem denotes_of_feed {cs : List Char} {r : Reading} (h : Reading.initial.feed 0 cs = .ok r)
    (hends : r.cursor.place.ends = true) : ∃ p, Denotes (String.ofList cs) p := by
  rcases r.finish_cases with ⟨⟨p, hp⟩, -⟩ | ⟨expected, -, hnot, -⟩
  · refine ⟨p, (read_eq_ok_iff_denotes _ _).1 ?_⟩
    rw [read_eq_feed, String.toList_ofList, h]
    exact hp
  · rw [hends] at hnot
    contradiction

/-- The reader stands where a text may end exactly behind the texts of the grammar. -/
theorem ends_iff_shaped {cs : List Char} {r : Reading}
    (h : Reading.initial.feed 0 cs = .ok r) : r.cursor.place.ends = true ↔ Shaped cs := by
  constructor
  · exact (stands_of_feed h).shaped
  · intro hshaped
    obtain ⟨last, hlast, hends⟩ := Place.after?_of_shaped hshaped
    rwa [← Place.Stands.unique (Place.after?_eq_some_iff.1 hlast) (stands_of_feed h)]

/-- Where a text may end, the reader takes a bracket and digits as they stand. -/
theorem Reading.feed_open {r : Reading} (hends : r.cursor.place.ends = true) (position : Nat)
    {digits : List Char} (hrun : IsRun digits) : ∃ letters indices,
      r.feed position ('[' :: digits) = .ok ⟨r.finished, .digits letters indices digits.reverse⟩ := by
  obtain ⟨finished, cursor⟩ := r
  cases cursor with
  | name letters =>
    exact ⟨letters, [], by simp [feed, step, feed_position _ _ _ _ hrun.1 hrun.2]⟩
  | closed letters indices =>
    exact ⟨letters, indices, by simp [feed, step, feed_position _ _ _ _ hrun.1 hrun.2]⟩
  | _ => contradiction

/-- In the digits of a position, what stands in front of its bracket denotes a path. -/
theorem exists_denotes_of_feed {cs letters digits : List Char} {finished : List Segment}
    {indices : List UInt64}
    (h : Reading.initial.feed 0 cs = .ok ⟨finished, .digits letters indices digits⟩) :
    ∃ before p, cs = before ++ '[' :: digits.reverse ∧ IsRun digits.reverse ∧
      Denotes (String.ofList before) p := by
  obtain ⟨before, taken, hshaped, hrun, rfl⟩ := stands_of_feed h
  rw [Reading.feed_append] at h
  cases hfeed : Reading.initial.feed 0 before with
  | error e =>
    rw [hfeed] at h
    contradiction
  | ok r =>
    rw [hfeed] at h
    have hends := (ends_iff_shaped hfeed).2 hshaped
    obtain ⟨letters', indices', hopen⟩ := Reading.feed_open hends (0 + before.length) hrun
    have hcursor := hopen.symm.trans h
    simp only [Except.ok.injEq, Reading.mk.injEq, Cursor.digits.injEq] at hcursor
    obtain ⟨-, -, -, rfl⟩ := hcursor
    obtain ⟨p, hp⟩ := denotes_of_feed hfeed hends
    rw [List.reverse_reverse]
    exact ⟨before, p, rfl, hrun, hp⟩

/-- A position that no word holds is found where it is closed. -/
theorem feed_eq_indexTooLarge_iff {cs : List Char} {digits : String} :
    Reading.initial.feed 0 cs = .error (.indexTooLarge digits) ↔
      FirstOversized cs digits.toList := by
  constructor
  · intro h
    obtain ⟨before, c, after, ⟨finished, cursor⟩, rfl, hfeed, hstep⟩ :=
      Reading.feed_eq_error_iff.1 h
    rcases Reading.step_cases ⟨finished, cursor⟩ (0 + before.length) c with ⟨next, hok, -⟩ |
      ⟨expected, hrefuse, -⟩ | ⟨letters, indices, run, rfl, rfl, hvalue, hlarge⟩
    · rw [hok] at hstep
      contradiction
    · rw [hrefuse] at hstep
      simp at hstep
    · rw [hlarge] at hstep
      obtain rfl := PathError.indexTooLarge.inj (Except.error.inj hstep)
      obtain ⟨done, p, rfl, hrun, hp⟩ := exists_denotes_of_feed hfeed
      rw [String.toList_ofList]
      exact ⟨done, after, p, rfl, hp, hrun, hvalue⟩
  · rintro ⟨before, after, p, rfl, hp, hrun, hvalue⟩
    obtain ⟨r, hfeed, hfinish⟩ := feed_of_denotes hp
    have hends : r.cursor.place.ends = true := by
      rcases r.finish_cases with ⟨-, hends⟩ | ⟨expected, hend, -, -⟩
      · exact hends
      · rw [hend] at hfinish
        contradiction
    obtain ⟨letters, indices, hopen⟩ := Reading.feed_open hends (0 + before.length) hrun
    rw [Reading.feed_eq_error_iff]
    refine ⟨before ++ '[' :: digits.toList, ']', after, _, rfl,
      by rw [Reading.feed_append, hfeed]; exact hopen, ?_⟩
    have hnone := (uint64?_eq_none_iff _).2 hvalue
    simp [Reading.step, hnone]

/-- Where the reader has taken all characters, a word holds every position. -/
theorem not_oversized_of_feed {cs : List Char} {r : Reading}
    (h : Reading.initial.feed 0 cs = .ok r) : ¬ Oversized cs := by
  rintro ⟨digits, hdigits⟩
  rw [← String.toList_ofList (l := digits), ← feed_eq_indexTooLarge_iff, h] at hdigits
  contradiction

/-- The reader refuses a character exactly where no text of the grammar goes on with it. -/
theorem not_viable_iff {before : List Char} {c : Char} {place : Place} (h : place.Stands before) :
    ¬ Viable (before ++ [c]) ↔ place.next? c = none := by
  have hafter : Place.after? .start (before ++ [c]) = place.next? c := by
    rw [Place.after?_concat, Place.after?_of_stands h]
    rfl
  rw [viable_iff]
  simp only [← Place.after?_eq_some_iff, hafter]
  cases place.next? c <;> simp

theorem Viable.left {cs ds : List Char} (h : Viable (cs ++ ds)) : Viable cs := by
  obtain ⟨rest, hrest⟩ := h
  exact ⟨ds ++ rest, by rwa [← List.append_assoc]⟩

/-- The reader takes the characters of every beginning whose positions a word holds. -/
theorem exists_feed_of_viable {cs : List Char} (hviable : Viable cs) (hfit : ¬ Oversized cs) :
    ∃ r, Reading.initial.feed 0 cs = .ok r := by
  cases h : Reading.initial.feed 0 cs with
  | ok r => exact ⟨r, rfl⟩
  | error e =>
    obtain ⟨before, c, after, r, rfl, hfeed, hstep⟩ := Reading.feed_eq_error_iff.1 h
    rcases r.step_cases (0 + before.length) c with ⟨next, hok, -⟩ | ⟨expected, -, hnext, -⟩ |
      ⟨letters, indices, digits, -, -, -, hlarge⟩
    · rw [hok] at hstep
      contradiction
    · have hnot := (not_viable_iff (stands_of_feed hfeed)).2 hnext
      rw [← List.singleton_append, ← List.append_assoc] at hviable
      exact absurd hviable.left hnot
    · obtain rfl := Except.error.inj (hlarge.symm.trans hstep)
      exact absurd ⟨_, feed_eq_indexTooLarge_iff.1 h⟩ hfit

/-- An expectation belongs to the place at which the text breaks off, and to no other. -/
theorem expected_iff {cs : List Char} {expected : Expected} (h : expected.place.Stands cs)
    (other : Expected) : other.place.Stands cs ↔ other = expected := by
  constructor
  · intro ho
    exact Expected.place_injective (ho.unique h)
  · rintro rfl
    exact h

/-- A character is refused behind the longest beginning of a text of the grammar. -/
theorem feed_eq_unexpected_iff {cs : List Char} {position : Nat} {found : Char}
    {expected : Expected} :
    Reading.initial.feed 0 cs = .error (.unexpected position found expected) ↔
      ∃ before after, cs = before ++ found :: after ∧ before.length = position ∧
        ¬ Oversized before ∧ Viable before ∧ ¬ Viable (before ++ [found]) ∧
        ∀ other : Expected, other.place.Stands before ↔ other = expected := by
  constructor
  · intro h
    obtain ⟨before, c, after, r, rfl, hfeed, hstep⟩ := Reading.feed_eq_error_iff.1 h
    have hstands := stands_of_feed hfeed
    rcases r.step_cases (0 + before.length) c with ⟨next, hok, -⟩ |
      ⟨expected', hrefuse, hnext, hplace⟩ | ⟨letters, indices, digits, -, -, -, hlarge⟩
    · rw [hok] at hstep
      contradiction
    · obtain ⟨hposition, rfl, rfl⟩ :=
        PathError.unexpected.inj (Except.error.inj (hrefuse.symm.trans hstep))
      refine ⟨before, after, rfl, by omega, not_oversized_of_feed hfeed,
        viable_iff.2 ⟨_, hstands⟩, (not_viable_iff hstands).2 hnext, expected_iff ?_⟩
      rwa [← hplace]
    · rw [hlarge] at hstep
      simp at hstep
  · rintro ⟨before, after, rfl, rfl, hfit, hviable, hnot, hexpected⟩
    obtain ⟨r, hfeed⟩ := exists_feed_of_viable hviable hfit
    have hstands := stands_of_feed hfeed
    have hnext := (not_viable_iff hstands).1 hnot
    rw [Reading.feed_eq_error_iff]
    refine ⟨before, found, after, r, rfl, hfeed, ?_⟩
    rcases r.step_cases (0 + before.length) found with ⟨next, -, hok⟩ |
      ⟨expected', hrefuse, -, hplace⟩ | ⟨letters, indices, digits, hcursor, rfl, -, -⟩
    · rw [hnext] at hok
      contradiction
    · rw [hplace] at hstands
      obtain rfl := (hexpected expected').1 hstands
      rw [hrefuse, Nat.zero_add]
    · rw [hcursor] at hnext
      contradiction

/-- An end is missed where a beginning of a text of the grammar is not yet one. -/
theorem read_eq_unexpectedEnd_iff {text : String} {expected : Expected} :
    read text = .error (.unexpectedEnd expected) ↔
      ¬ Oversized text.toList ∧ ¬ Shaped text.toList ∧ Viable text.toList ∧
        ∀ other : Expected, other.place.Stands text.toList ↔ other = expected := by
  rw [read_eq_feed]
  constructor
  · intro h
    cases hfeed : Reading.initial.feed 0 text.toList with
    | error e =>
      have hne := Reading.initial.feed_ne_unexpectedEnd 0 text.toList expected
      rw [hfeed] at h hne
      exact absurd (congrArg Except.error (Except.error.inj h)) hne
    | ok r =>
      rw [hfeed] at h
      have hstands := stands_of_feed hfeed
      rcases r.finish_cases with ⟨⟨p, hp⟩, -⟩ | ⟨expected', hend, hends, hplace⟩
      · have hfault := hp.symm.trans h
        contradiction
      · obtain rfl := PathError.unexpectedEnd.inj (Except.error.inj (hend.symm.trans h))
        refine ⟨not_oversized_of_feed hfeed, ?_, viable_iff.2 ⟨_, hstands⟩, expected_iff ?_⟩
        · rw [← ends_iff_shaped hfeed, hends]
          exact Bool.false_ne_true
        · rwa [← hplace]
  · rintro ⟨hfit, hshaped, hviable, hexpected⟩
    obtain ⟨r, hfeed⟩ := exists_feed_of_viable hviable hfit
    have hstands := stands_of_feed hfeed
    rw [hfeed]
    rcases r.finish_cases with ⟨-, hends⟩ | ⟨expected', hend, -, hplace⟩
    · exact absurd ((ends_iff_shaped hfeed).1 hends) hshaped
    · rw [hplace] at hstands
      obtain rfl := (hexpected expected').1 hstands
      exact hend

/-- Every other fault is found by a step. -/
theorem read_eq_error_iff_feed {text : String} {e : PathError}
    (h : ∀ expected, e ≠ .unexpectedEnd expected) :
    read text = .error e ↔ Reading.initial.feed 0 text.toList = .error e := by
  rw [read_eq_feed]
  cases hfeed : Reading.initial.feed 0 text.toList with
  | error e' => simp [Except.bind]
  | ok r =>
    rcases r.finish_cases with ⟨⟨p, hp⟩, -⟩ | ⟨expected, hend, -⟩
    · simp [Except.bind, hp]
    · simp [Except.bind, hend, (h expected).symm]

/-- The first position that no word holds ends a text of the grammar. -/
theorem FirstOversized.shaped {cs digits : List Char} (h : FirstOversized cs digits) :
    ∃ front after, cs = front ++ after ∧ '[' :: digits ++ [']'] <:+ front ∧ Shaped front := by
  obtain ⟨before, after, p, rfl, hp, hrun, -⟩ := h
  have hshaped := hp.shaped
  rw [String.toList_ofList] at hshaped
  refine ⟨before ++ '[' :: digits ++ [']'], after, by simp, ?_, hshaped.bracketed hrun⟩
  rw [List.append_assoc]
  exact List.suffix_append before _

/-- The faults of the checks that the callers have made sure of: a dot and an opening bracket where
nothing else can stand, and a path with segments. -/
def Descent.Fault.Idle : Descent.Fault → Prop
  | .unexpected _ _ expected => expected = "'.'" ∨ expected = "'['"
  | .unexpectedEnd expected => expected = "'.'" ∨ expected = "'['"
  | .invalid message => message = "path has no segments"

/-- No fault of a text is one of a check that cannot fail. -/
theorem not_idle (e : PathError) : ¬ e.inWords.Idle := by
  have htext (expected : Expected) : ¬ (expected.text = "'.'" ∨ expected.text = "'['") := by
    cases expected <;> decide
  cases e with
  | unexpected position found expected => exact htext expected
  | unexpectedEnd expected => exact htext expected
  | indexTooLarge digits =>
    intro h
    have hhead := congrArg (fun message : String => message.toList.head?) h
    simp at hhead

/-- The fault of a text is the leftmost one. A character is refused behind the longest beginning of a
text of the grammar, an end is missed where a beginning is not yet a text, and each of the two says
what belongs to the place. A position that no word holds is found whatever follows it. The descent
finds the same, and none of its faults is one of a check that cannot fail. -/
theorem read_fault_leftmost (text : String) :
    (∀ position found expected, read text = .error (.unexpected position found expected) ↔
      ∃ before after, text.toList = before ++ found :: after ∧ before.length = position ∧
        ¬ Oversized before ∧ Viable before ∧ ¬ Viable (before ++ [found]) ∧
        ∀ other : Expected, other.place.Stands before ↔ other = expected) ∧
    (∀ expected, read text = .error (.unexpectedEnd expected) ↔
      ¬ Oversized text.toList ∧ ¬ Shaped text.toList ∧ Viable text.toList ∧
        ∀ other : Expected, other.place.Stands text.toList ↔ other = expected) ∧
    (∀ digits, read text = .error (.indexTooLarge digits) ↔
      FirstOversized text.toList digits.toList) ∧
    (∀ digits, FirstOversized text.toList digits → ∃ front after, text.toList = front ++ after ∧
      '[' :: digits ++ [']'] <:+ front ∧ Shaped front) ∧
    Descent.read text = (read text).mapError PathError.inWords ∧
    ∀ fault, Descent.read text = .error fault → ¬ fault.Idle := by
  refine ⟨?_, ?_, ?_, ?_, Descent.read_eq text, ?_⟩
  · intro position found expected
    rw [read_eq_error_iff_feed (by simp), feed_eq_unexpected_iff]
  · intro expected
    exact read_eq_unexpectedEnd_iff
  · intro digits
    rw [read_eq_error_iff_feed (by simp), feed_eq_indexTooLarge_iff]
  · intro digits h
    exact h.shaped
  · intro fault h
    rw [Descent.read_eq] at h
    cases hread : read text with
    | ok p =>
      rw [hread] at h
      contradiction
    | error e =>
      rw [hread] at h
      obtain rfl := Except.error.inj h
      exact not_idle e

end Path

end TreePath
