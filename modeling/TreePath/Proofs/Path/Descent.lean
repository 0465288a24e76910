import Mathlib.Data.List.TakeWhile
import TreePath.Path.Descent
import TreePath.Proofs.Path.Feed

/-!
The reader that descends and the reader that takes one character at a time give the same paths and,
in words, the same faults. So the checks of the descent that its callers have made sure of never
fail.
-/

namespace TreePath

def PathError.inWords : PathError → Path.Descent.Fault
  | .unexpected position found expected => .unexpected position found expected.text
  | .unexpectedEnd expected => .unexpectedEnd expected.text
  | .indexTooLarge digits => .invalid ("array index " ++ digits ++ " is too large")

namespace Path

namespace Descent

/-- What the reader makes of a rest from where it stands, in words. -/
def outcome (reading : Reading) (r : Rest) : Except Fault Path :=
  (reading.run r.position r.chars).mapError PathError.inWords

theorem outcome_of_step {reading next : Reading} {position : Nat} {c : Char} {cs : List Char}
    (h : reading.step position c = .ok next) :
    outcome reading ⟨position, c :: cs⟩ = outcome next ⟨position + 1, cs⟩ := by
  simp only [outcome, Reading.run, h]

theorem outcome_of_fault {reading : Reading} {position : Nat} {c : Char} {cs : List Char}
    {e : PathError} (h : reading.step position c = .error e) :
    outcome reading ⟨position, c :: cs⟩ = .error e.inWords := by
  simp only [outcome, Reading.run, h, Except.mapError]

/-- The reader takes all characters that the descent takes at once. -/
theorem outcome_of_feed {reading next : Reading} {r : Rest} {p : Char → Bool}
    (h : reading.feed r.position (r.chars.takeWhile p) = .ok next) :
    outcome reading r = outcome next (r.skip p) := by
  have hchars : r.chars = r.chars.takeWhile p ++ r.chars.dropWhile p :=
    List.takeWhile_append_dropWhile.symm
  rw [outcome, hchars, Reading.run_append, h]
  rfl

/-- The end and a character may be refused for the same reason. -/
theorem outcome_refuse {reading : Reading} {r : Rest} (expected : Expected)
    (hend : reading.finish = .error (.unexpectedEnd expected))
    (hstep : ∀ c ∈ r.chars.head?,
      reading.step r.position c = .error (.unexpected r.position c expected)) :
    outcome reading r = .error (r.refuse expected.text) := by
  obtain ⟨position, chars⟩ := r
  cases chars with
  | nil => simp only [outcome, Reading.run, hend, Except.mapError, Rest.refuse, PathError.inWords]
  | cons c cs => exact outcome_of_fault (hstep c rfl)

/-- Behind the characters with a property stands one without it, or the end. -/
theorem not_of_mem_head?_skip {r : Rest} {p : Char → Bool} {c : Char}
    (h : c ∈ (r.skip p).chars.head?) : p c = false := by
  have hhead := List.head?_dropWhile_not p r.chars
  rw [Option.mem_def, Rest.skip] at h
  rwa [h] at hhead

theorem skip_of_takeWhile_eq_nil {r : Rest} {p : Char → Bool} (h : r.chars.takeWhile p = []) :
    r.skip p = r := by
  have hchars : r.chars.dropWhile p = r.chars := by
    conv_rhs => rw [← List.takeWhile_append_dropWhile (p := p) (l := r.chars), h, List.nil_append]
  simp [Rest.skip, h, hchars]

/-- Where the reader takes characters with a property, of which there must be one, it takes those
that the descent takes. -/
theorem outcome_take {reading : Reading} (p : Char → Bool) (expected : Expected)
    (next : List Char → Reading)
    (hend : reading.finish = .error (.unexpectedEnd expected))
    (hstep : ∀ position c, p c = false →
      reading.step position c = .error (.unexpected position c expected))
    (hfeed : ∀ position taken, taken ≠ [] → (∀ c ∈ taken, p c) →
      reading.feed position taken = .ok (next taken)) (r : Rest) :
    outcome reading r =
      r.take p expected.text >>= fun x => outcome (next x.1) x.2 := by
  unfold Rest.take
  split
  · next hempty =>
    rw [skip_of_takeWhile_eq_nil hempty]
    refine outcome_refuse expected hend fun c hc => hstep r.position c ?_
    rw [← skip_of_takeWhile_eq_nil hempty] at hc
    exact not_of_mem_head?_skip hc
  · next htaken =>
    exact outcome_of_feed (hfeed r.position _ htaken fun c hc => List.mem_takeWhile_imp hc)

theorem bind_congr_ok {α β : Type} {x : Except Fault α} {f g : α → Except Fault β}
    (h : ∀ a, x = .ok a → f a = g a) : x >>= f = x >>= g := by
  cases x with
  | error e => rfl
  | ok a => exact h a rfl

/-- Where a segment begins, both readers take the same name. Behind it the reader stands as behind
the last position of a segment. -/
theorem outcome_name (finished : List Segment) (r : Rest) :
    outcome ⟨finished, .start⟩ r =
      r.name >>= fun x => outcome ⟨finished, .closed x.1.reverse []⟩ x.2 := by
  have hletter (c : Char) : (c ≠ '.' && c ≠ '[') = true ↔ c ≠ '.' ∧ c ≠ '[' := by simp
  have hother (c : Char) : (c ≠ '.' && c ≠ '[') = false ↔ c = '.' ∨ c = '[' := by
    simp [Decidable.or_iff_not_imp_left]
  rw [Rest.name, ← Expected.text, outcome_take (fun c => c ≠ '.' && c ≠ '[') .propertyName
    fun letters => ⟨finished, .name letters.reverse⟩]
  · refine bind_congr_ok ?_
    rintro ⟨letters, rest⟩ hname
    obtain ⟨-, -, rfl⟩ := Rest.take_eq_ok_iff.1 hname
    generalize hrest : r.skip (fun c => c ≠ '.' && c ≠ '[') = rest
    obtain ⟨position, chars⟩ := rest
    cases chars with
    | nil => rfl
    | cons c cs =>
      have hc : c ∈ (r.skip fun c => c ≠ '.' && c ≠ '[').chars.head? := by rw [hrest]; rfl
      rcases (hother c).1 (not_of_mem_head?_skip hc) with rfl | rfl <;> rfl
  · rfl
  · intro position c hc
    simp [Reading.step, (hother c).1 hc]
  · intro position taken nonempty hplain
    obtain ⟨c, letters, rfl⟩ := List.exists_cons_of_ne_nil nonempty
    obtain ⟨hc, hplain⟩ := List.forall_mem_cons.1 hplain
    have hfeed := Reading.feed_letters finished [c] (position + 1) fun d hd =>
      (hletter d).1 (hplain d hd)
    simp [Reading.feed, Reading.step, (hletter c).1 hc, hfeed]

/-- Behind its digits a position is closed, and only then its value is looked at. -/
theorem outcome_close (finished : List Segment) (letters : List Char) (indices : List UInt64)
    (digits : List Char) {r : Rest} (h : ∀ c ∈ r.chars.head?, c.isDigit = false) :
    outcome ⟨finished, .digits letters indices digits.reverse⟩ r =
      r.expect ']' >>= fun closed =>
        (match uint64? (digitsValue digits) with
        | some index => outcome ⟨finished, .closed letters (index :: indices)⟩ closed
        | none => .error (.invalid ("array index " ++ String.ofList digits ++ " is too large"))) := by
  unfold Rest.expect
  split
  · next hhead =>
    obtain ⟨position, chars⟩ := r
    obtain ⟨cs, rfl⟩ := List.head?_eq_some_iff.1 hhead
    cases hindex : uint64? (digitsValue digits) with
    | some index => exact outcome_of_step (by simp [Reading.step, hindex])
    | none =>
      have hstep : Reading.step ⟨finished, .digits letters indices digits.reverse⟩ position ']' =
          .error (.indexTooLarge (String.ofList digits)) := by simp [Reading.step, hindex]
      exact outcome_of_fault hstep
  · next hhead =>
    refine outcome_refuse .closingBracket rfl fun c hc => ?_
    have hne : c ≠ ']' := by
      rintro rfl
      exact hhead hc
    simp [Reading.step, h c hc, hne]

/-- Where a position begins, both readers take the same position. -/
theorem outcome_index (finished : List Segment) (letters : List Char) (indices : List UInt64)
    {r : Rest} (h : r.chars.head? = some '[') :
    outcome ⟨finished, .closed letters indices⟩ r =
      r.index >>= fun x => outcome ⟨finished, .closed letters (x.1 :: indices)⟩ x.2 := by
  have hopen : outcome ⟨finished, .closed letters indices⟩ r =
      outcome ⟨finished, .bracket letters indices⟩ r.next := by
    obtain ⟨position, chars⟩ := r
    obtain ⟨cs, rfl⟩ := List.head?_eq_some_iff.1 h
    exact outcome_of_step (by simp [Reading.step])
  have hdigits := outcome_take Char.isDigit .indexDigits
    (fun digits => ⟨finished, .digits letters indices digits.reverse⟩) rfl
    (fun position c hc => by simp [Reading.step, hc])
    (fun position taken nonempty decimal =>
      Reading.feed_position finished letters indices position nonempty decimal) r.next
  rw [hopen, hdigits, Rest.index, Rest.expect_eq_ok_iff.2 ⟨h, rfl⟩]
  simp only [bind_assoc]
  refine bind_congr_ok ?_
  rintro ⟨digits, rest⟩ htake
  obtain ⟨-, -, rfl⟩ := Rest.take_eq_ok_iff.1 htake
  rw [outcome_close _ _ _ _ fun c hc => not_of_mem_head?_skip hc]
  refine bind_congr_ok fun closed _ => ?_
  cases uint64? (digitsValue digits) <;> rfl

/-- Both readers take the same positions. -/
theorem outcome_indices (finished : List Segment) (letters : List Char) (indices : List UInt64)
    (r : Rest) :
    outcome ⟨finished, .closed letters indices⟩ r =
      r.indices >>= fun x => outcome ⟨finished, .closed letters (x.1.reverse ++ indices)⟩ x.2 := by
  fun_induction Rest.indices r generalizing indices with
  | case1 r hhead i next hindex ih =>
    have hnext := ih (i :: indices)
    rw [outcome_index finished letters indices hhead, hindex]
    refine hnext.trans ?_
    cases next.indices with
    | error e => rfl
    | ok more => simp [bind, Except.bind, Except.map]
  | case2 r hhead e hindex =>
    rw [outcome_index finished letters indices hhead, hindex]
    rfl
  | case3 r hhead => rfl

/-- No position is left behind all that come next. -/
theorem head?_ne_of_indices {r rest : Rest} {is : List UInt64} (h : r.indices = .ok (is, rest)) :
    rest.chars.head? ≠ some '[' := by
  fun_induction Rest.indices r generalizing is with
  | case1 r _ i next _ ih =>
    obtain ⟨more, hmore, hpair⟩ := map_eq_ok_iff.1 h
    obtain ⟨-, rfl⟩ := Prod.mk.inj hpair
    exact ih hmore
  | case2 r _ e _ => contradiction
  | case3 r hhead =>
    obtain ⟨-, rfl⟩ := Prod.mk.inj (Except.ok.inj h)
    exact hhead

def assembleOnto (finished segments : List Segment) : Except Fault Path :=
  assemble (finished.reverse ++ segments)

theorem assembleOnto_singleton (finished : List Segment) (s : Segment) :
    assembleOnto finished [s] = .ok (Reading.complete s finished) := by
  simp [assembleOnto, assemble, ofSegments?, Reading.complete]

theorem assembleOnto_cons (finished : List Segment) (s : Segment) (segments : List Segment) :
    assembleOnto finished (s :: segments) = assembleOnto (s :: finished) segments := by
  simp [assembleOnto]

/-- Both readers take the same segment. Behind it the text ends, or a dot begins another. -/
theorem outcome_segment (finished : List Segment) (r : Rest) :
    outcome ⟨finished, .start⟩ r =
      r.segment >>= fun x =>
        (match x.2.chars with
        | [] => .ok (Reading.complete x.1 finished)
        | _ :: _ => outcome ⟨x.1 :: finished, .start⟩ x.2.next) := by
  rw [outcome_name, Rest.segment]
  simp only [bind_assoc]
  refine bind_congr_ok ?_
  rintro ⟨letters, named⟩ -
  rw [outcome_indices]
  refine bind_congr_ok ?_
  rintro ⟨indices, rest⟩ hindices
  have hbracket := head?_ne_of_indices hindices
  have hsegment : Reading.segment letters.reverse (indices.reverse ++ []) =
      ⟨String.ofList letters, indices⟩ := by simp [Reading.segment]
  obtain ⟨position, chars⟩ := rest
  cases chars with
  | nil =>
    simp only [outcome, Reading.run, Reading.finish, hsegment]
    rfl
  | cons c cs =>
    by_cases hdot : c = '.'
    · subst hdot
      have hstep : Reading.step ⟨finished, .closed letters.reverse (indices.reverse ++ [])⟩ position
          '.' = .ok ⟨⟨String.ofList letters, indices⟩ :: finished, .start⟩ := by
        simp [Reading.step, Reading.segment]
      exact outcome_of_step hstep
    · have hopen : c ≠ '[' := by
        rintro rfl
        exact hbracket rfl
      have hstep : Reading.step ⟨finished, .closed letters.reverse (indices.reverse ++ [])⟩ position
          c = .error (.unexpected position c .continuation) := by
        simp [Reading.step, hopen, hdot]
      rw [outcome_of_fault hstep]
      simp [hdot, bind, Except.bind, PathError.inWords, Rest.refuse, Expected.text]

/-- A segment ends at the end of the text or at a dot. -/
theorem head?_of_segment {r rest : Rest} {s : Segment} (h : r.segment = .ok (s, rest)) :
    ∀ c ∈ rest.chars.head?, c = '.' := by
  obtain ⟨⟨letters, named⟩, -, h⟩ := bind_eq_ok_iff.1 h
  obtain ⟨⟨indices, last⟩, -, h⟩ := bind_eq_ok_iff.1 h
  dsimp only at h
  split at h
  · next hhead =>
    obtain ⟨-, rfl⟩ := Prod.mk.inj (Except.ok.inj h)
    intro c hc
    rcases hhead with hnone | hdot
    · rw [hnone] at hc
      contradiction
    · exact Option.some.inj (hc.symm.trans hdot)
  · contradiction

/-- Both readers take the same segments. -/
theorem outcome_segments (finished : List Segment) (r : Rest) :
    outcome ⟨finished, .start⟩ r = r.segments >>= assembleOnto finished := by
  fun_induction Rest.segments r generalizing finished with
  | case1 r e hsegment =>
    rw [outcome_segment, hsegment]
    rfl
  | case2 r s rest hsegment hrest =>
    rw [outcome_segment, hsegment]
    simp [bind, Except.bind, hrest, assembleOnto_singleton]
  | case3 r s rest hsegment cs hrest ih =>
    rw [outcome_segment, hsegment]
    simp only [bind, Except.bind, hrest]
    rw [ih]
    cases rest.next.segments with
    | error e => rfl
    | ok segments => exact (assembleOnto_cons finished s segments).symm
  | case4 r s rest hsegment c cs hrest hdot =>
    have hc := head?_of_segment hsegment c (by rw [hrest]; rfl)
    contradiction

/-- The reader that descends gives the paths and, in words, the faults of the other. -/
theorem read_eq (text : String) :
    Descent.read text = (Path.read text).mapError PathError.inWords :=
  (outcome_segments [] ⟨0, text.toList⟩).symm

end Descent

end Path

end TreePath
