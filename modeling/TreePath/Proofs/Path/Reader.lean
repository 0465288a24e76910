import TreePath.Proofs.Path.Grammar

/-!
The reader reads exactly the grammar. What may follow each place of the reader is said as a
language of its own; one character of that language is one step of the reader, so that a run
succeeds exactly on the texts that the grammar allows, and gives the path that they denote.
-/

namespace TreePath

namespace Path

/-- What may follow the first digits of a position: more digits, a bracket, other positions. -/
def IsOpen (digits cs : List Char) (indices : List UInt64) : Prop :=
  ∃ more rest index later, cs = more ++ ']' :: rest ∧ (∀ d ∈ more, d.isDigit) ∧
    digitsValue (digits ++ more) = index.toNat ∧ IsSuffixes rest later ∧ indices = index :: later

/-- What may follow an opening bracket: a digit, and the rest of the position. -/
def IsBracketed (cs : List Char) (indices : List UInt64) : Prop :=
  ∃ digit rest, cs = digit :: rest ∧ digit.isDigit ∧ IsOpen [digit] rest indices

/-- What may follow the first characters of a name: more of the name, then positions. -/
def IsNamed (name cs : List Char) (s : Segment) : Prop :=
  ∃ more suffixes, cs = more ++ suffixes ∧ '[' ∉ more ∧ IsSuffixes suffixes s.indices ∧
    s.property = String.ofList (name ++ more)

theorem not_isOpen_nil (digits : List Char) (indices : List UInt64) :
    ¬ IsOpen digits [] indices := by
  rintro ⟨more, rest, index, later, hcs, -⟩
  simp at hcs

/-- Inside a position stands another digit, or the bracket that closes it. -/
theorem isOpen_cons_iff {digits cs : List Char} {c : Char} {indices : List UInt64} :
    IsOpen digits (c :: cs) indices ↔
      (c.isDigit ∧ IsOpen (digits ++ [c]) cs indices) ∨
      (c = ']' ∧ ∃ index later, digitsValue digits = index.toNat ∧ IsSuffixes cs later ∧
        indices = index :: later) := by
  constructor
  · rintro ⟨more, rest, index, later, hcs, decimal, value, tail, rfl⟩
    cases more with
    | nil =>
      obtain ⟨rfl, rfl⟩ := List.cons.inj hcs
      exact .inr ⟨rfl, index, later, by simpa using value, tail, rfl⟩
    | cons d more =>
      obtain ⟨rfl, rfl⟩ := List.cons.inj hcs
      obtain ⟨hc, decimal⟩ := List.forall_mem_cons.1 decimal
      exact .inl ⟨hc, more, rest, index, later, rfl, decimal, by simpa using value, tail, rfl⟩
  · rintro (⟨hc, more, rest, index, later, rfl, decimal, value, tail, rfl⟩ |
      ⟨rfl, index, later, value, tail, rfl⟩)
    · exact ⟨c :: more, rest, index, later, rfl, List.forall_mem_cons.2 ⟨hc, decimal⟩,
        by simpa using value, tail, rfl⟩
    · exact ⟨[], cs, index, later, rfl, by simp, by simpa using value, tail, rfl⟩

/-- Positions are an opening bracket and what may follow it. -/
theorem isSuffixes_cons_iff {c : Char} {cs : List Char} {indices : List UInt64} :
    IsSuffixes (c :: cs) indices ↔ c = '[' ∧ IsBracketed cs indices := by
  constructor
  · intro h
    generalize hcs : c :: cs = all at h
    cases h with
    | none => cases hcs
    | more digits rest index later nonempty decimal value tail =>
      obtain ⟨digit, digits, rfl⟩ := List.exists_cons_of_ne_nil nonempty
      obtain ⟨hdigit, decimal⟩ := List.forall_mem_cons.1 decimal
      obtain ⟨rfl, rfl⟩ := List.cons.inj hcs
      exact ⟨rfl, digit, _, rfl, hdigit, digits, rest, index, later, rfl, decimal, value, tail, rfl⟩
  · rintro ⟨rfl, digit, _, rfl, hdigit, more, rest, index, later, rfl, decimal, value, tail, rfl⟩
    exact .more (digit :: more) rest index later (List.cons_ne_nil _ _)
      (List.forall_mem_cons.2 ⟨hdigit, decimal⟩) value tail

/-- Behind the first characters of a name stands another of them, or a position. -/
theorem isNamed_cons_iff {name cs : List Char} {c : Char} {s : Segment} :
    IsNamed name (c :: cs) s ↔
      (c ≠ '[' ∧ IsNamed (name ++ [c]) cs s) ∨
      (c = '[' ∧ s.property = String.ofList name ∧ IsBracketed cs s.indices) := by
  constructor
  · rintro ⟨more, suffixes, hcs, plain, tail, property⟩
    cases more with
    | nil =>
      rw [List.nil_append] at hcs
      subst hcs
      obtain ⟨hc, tail⟩ := isSuffixes_cons_iff.1 tail
      exact .inr ⟨hc, by simpa using property, tail⟩
    | cons d more =>
      obtain ⟨rfl, rfl⟩ := List.cons.inj hcs
      exact .inl ⟨Ne.symm (List.ne_of_not_mem_cons plain), more, suffixes, rfl,
        List.not_mem_of_not_mem_cons plain, tail, by simpa using property⟩
  · rintro (⟨hc, more, suffixes, rfl, plain, tail, property⟩ | ⟨rfl, property, tail⟩)
    · exact ⟨c :: more, suffixes, rfl, List.not_mem_cons_of_ne_of_not_mem (Ne.symm hc) plain, tail,
        by simpa using property⟩
    · exact ⟨[], '[' :: cs, rfl, List.not_mem_nil, isSuffixes_cons_iff.2 ⟨rfl, tail⟩,
        by simpa using property⟩

/-- A piece is the first character of a name and what may follow it. -/
theorem isPiece_cons_iff {c : Char} {cs : List Char} {s : Segment} :
    IsPiece (c :: cs) s ↔ c ≠ '[' ∧ IsNamed [c] cs s := by
  constructor
  · intro h
    generalize hcs : c :: cs = all at h
    cases h with
    | intro name suffixes indices nonempty plain tail =>
      obtain ⟨d, more, rfl⟩ := List.exists_cons_of_ne_nil nonempty
      obtain ⟨rfl, rfl⟩ := List.cons.inj hcs
      exact ⟨Ne.symm (List.ne_of_not_mem_cons plain), more, suffixes, rfl,
        List.not_mem_of_not_mem_cons plain, tail, rfl⟩
  · rintro ⟨hc, more, suffixes, rfl, plain, tail, property⟩
    have h := IsPiece.intro (c :: more) suffixes s.indices (List.cons_ne_nil _ _)
      (List.not_mem_cons_of_ne_of_not_mem (Ne.symm hc) plain) tail
    have hs : (⟨String.ofList (c :: more), s.indices⟩ : Segment) = s := by
      rw [← List.singleton_append, ← property]
    rwa [hs] at h

theorem not_isPiece_nil (s : Segment) : ¬ IsPiece [] s := by
  intro h
  generalize hcs : [] = all at h
  cases h with
  | intro name suffixes indices nonempty plain tail =>
    exact nonempty (List.append_eq_nil_iff.1 hcs.symm).1

/-- What may follow a place of the reader in its piece, and the segment that the piece spells. -/
def Cursor.Leads : Cursor → List Char → Segment → Prop
  | .start, cs, s => IsPiece cs s
  | .name letters, cs, s => IsNamed letters.reverse cs s
  | .bracket letters earlier, cs, s => s.property = String.ofList letters.reverse ∧
      ∃ later, IsBracketed cs later ∧ s.indices = earlier.reverse ++ later
  | .digits letters earlier run, cs, s => s.property = String.ofList letters.reverse ∧
      ∃ later, IsOpen run.reverse cs later ∧ s.indices = earlier.reverse ++ later
  | .closed letters earlier, cs, s => s.property = String.ofList letters.reverse ∧
      ∃ later, IsSuffixes cs later ∧ s.indices = earlier.reverse ++ later

/-- The segment that is complete where a piece may end. -/
def Cursor.segment? : Cursor → Option Segment
  | .name letters => some (Reading.segment letters [])
  | .closed letters earlier => some (Reading.segment letters earlier)
  | _ => none

/-- A piece ends exactly where a segment is complete. -/
theorem Cursor.leads_nil_iff (cursor : Cursor) (s : Segment) :
    cursor.Leads [] s ↔ cursor.segment? = some s := by
  cases cursor with
  | start => simp [Leads, segment?, not_isPiece_nil]
  | name letters =>
    simp only [Leads, segment?, Option.some.injEq]
    constructor
    · rintro ⟨more, suffixes, hcs, -, tail, property⟩
      obtain ⟨rfl, rfl⟩ := List.append_eq_nil_iff.1 hcs.symm
      have hindices := isSuffixes_nil_iff.1 tail
      cases s
      simp_all [Reading.segment]
    · rintro rfl
      exact ⟨[], [], rfl, List.not_mem_nil, .none, by simp [Reading.segment]⟩
  | bracket letters earlier => simp [Leads, segment?, IsBracketed]
  | digits letters earlier run => simp [Leads, segment?, not_isOpen_nil]
  | closed letters earlier =>
    simp only [Leads, segment?, Option.some.injEq, isSuffixes_nil_iff]
    constructor
    · rintro ⟨property, later, rfl, indices⟩
      cases s
      simp_all [Reading.segment]
    · rintro rfl
      exact ⟨rfl, [], rfl, by simp [Reading.segment]⟩

/-- Inside a piece, one character is one step of the reader. -/
theorem Cursor.leads_cons_iff (finished : List Segment) (cursor : Cursor) (position : Nat)
    {c : Char} (hc : c ≠ '.') (cs : List Char) (s : Segment) :
    cursor.Leads (c :: cs) s ↔ ∃ next, (⟨finished, cursor⟩ : Reading).step position c =
      .ok ⟨finished, next⟩ ∧ next.Leads cs s := by
  cases cursor with
  | start =>
    rw [Leads, isPiece_cons_iff]
    by_cases hb : c = '[' <;> simp [Reading.step, hc, hb, Leads]
  | name letters =>
    rw [Leads, isNamed_cons_iff]
    by_cases hb : c = '[' <;> simp [Reading.step, hc, hb, Leads]
  | bracket letters earlier =>
    by_cases hd : c.isDigit <;> simp [Reading.step, hd, Leads, IsBracketed]
  | digits letters earlier run =>
    simp only [Leads, isOpen_cons_iff]
    by_cases hd : c.isDigit
    · have hb : c ≠ ']' := by rintro rfl; simp at hd
      simp [Reading.step, hd, hb]
    · by_cases hb : c = ']'
      · -- The value of the digits decides: a position is closed exactly where a word holds it.
        subst hb
        cases hi : uint64? (digitsValue run.reverse) with
        | none =>
          have hno : ∀ index : UInt64, digitsValue run.reverse ≠ index.toNat := by
            intro index hvalue
            rw [uint64?_eq_some_iff.2 hvalue.symm] at hi
            cases hi
          simp [Reading.step, hi, hno]
        | some index =>
          have hvalue : digitsValue run.reverse = index.toNat := (uint64?_eq_some_iff.1 hi).symm
          have hstep : (⟨finished, .digits letters earlier run⟩ : Reading).step position ']' =
              .ok ⟨finished, .closed letters (index :: earlier)⟩ := by simp [Reading.step, hi]
          simp only [hstep, hvalue, UInt64.toNat_inj]
          simp
      · simp [Reading.step, hd, hb]
  | closed letters earlier =>
    simp only [Leads, isSuffixes_cons_iff]
    by_cases hb : c = '[' <;> simp [Reading.step, hc, hb]

/-- A dot is taken exactly where a segment is complete; the reader then starts another. -/
theorem Reading.step_dot (r : Reading) (position : Nat) (next : Reading) :
    r.step position '.' = .ok next ↔
      ∃ s, r.cursor.segment? = some s ∧ next = ⟨s :: r.finished, .start⟩ := by
  obtain ⟨finished, cursor⟩ := r
  cases cursor <;> simp [Reading.step, Cursor.segment?, eq_comm]

/-- Only a dot finishes a segment. -/
theorem Reading.finished_of_step {r next : Reading} {position : Nat} {c : Char} (hc : c ≠ '.')
    (h : r.step position c = .ok next) : next.finished = r.finished := by
  obtain ⟨finished, cursor⟩ := r
  cases cursor with
  | start =>
    simp only [step] at h
    split at h
    · contradiction
    · rw [← Except.ok.inj h]
  | name letters =>
    simp only [step, if_neg hc] at h
    split at h <;> rw [← Except.ok.inj h]
  | bracket letters earlier =>
    simp only [step] at h
    split at h
    · rw [← Except.ok.inj h]
    · contradiction
  | digits letters earlier run =>
    simp only [step] at h
    split at h
    · rw [← Except.ok.inj h]
    · split at h
      · cases hi : uint64? (digitsValue run.reverse) with
        | none => simp [hi] at h
        | some index =>
          simp only [hi] at h
          rw [← Except.ok.inj h]
      · contradiction
  | closed letters earlier =>
    simp only [step, if_neg hc] at h
    split at h
    · rw [← Except.ok.inj h]
    · contradiction

/-- The end of the text is taken exactly where a segment is complete. -/
theorem Reading.finish_eq_ok_iff (r : Reading) (p : Path) :
    r.finish = .ok p ↔
      ∃ s, r.cursor.segment? = some s ∧ p.segments = r.finished.reverse ++ [s] := by
  obtain ⟨finished, cursor⟩ := r
  cases cursor <;>
    simp [Reading.finish, Cursor.segment?, Reading.complete, eq_iff_segments, eq_comm]

/-- What may follow a place of the reader in the whole text, and the path that comes of it. -/
def Reading.Leads (r : Reading) (cs : List Char) (p : Path) : Prop :=
  ∃ piece rest s later, pieces cs = piece :: rest ∧ r.cursor.Leads piece s ∧ Spells rest later ∧
    p.segments = r.finished.reverse ++ s :: later

theorem Reading.leads_nil_iff (r : Reading) (p : Path) : r.Leads [] p ↔ r.finish = .ok p := by
  rw [finish_eq_ok_iff]
  constructor
  · rintro ⟨piece, rest, s, later, hp, lead, tail, hs⟩
    obtain ⟨rfl, rfl⟩ := List.cons.inj hp
    cases tail
    exact ⟨s, (Cursor.leads_nil_iff _ s).1 lead, hs⟩
  · rintro ⟨s, hc, hs⟩
    exact ⟨[], [], s, [], rfl, (Cursor.leads_nil_iff _ s).2 hc, .nil, hs⟩

/-- In the whole text, one character is one step of the reader. -/
theorem Reading.leads_cons_iff (r : Reading) (position : Nat) (c : Char) (cs : List Char)
    (p : Path) : r.Leads (c :: cs) p ↔ ∃ next, r.step position c = .ok next ∧ next.Leads cs p := by
  obtain ⟨first, others, hp⟩ := List.exists_cons_of_ne_nil (pieces_ne_nil cs)
  by_cases hc : c = '.'
  · subst hc
    simp only [step_dot]
    constructor
    · rintro ⟨piece, rest, s, later, hdot, lead, tail, hs⟩
      rw [pieces_cons_dot] at hdot
      obtain ⟨rfl, rfl⟩ := List.cons.inj hdot
      rw [hp] at tail
      obtain - | ⟨_, t, _, later, head, tail⟩ := tail
      exact ⟨_, ⟨s, (Cursor.leads_nil_iff _ s).1 lead, rfl⟩, first, others, t, later, hp, head,
        tail, by simpa using hs⟩
    · rintro ⟨_, ⟨s, hs, rfl⟩, piece, rest, t, later, hcs, head, tail, hp⟩
      exact ⟨[], piece :: rest, s, t :: later, by rw [pieces_cons_dot, hcs],
        (Cursor.leads_nil_iff _ s).2 hs, .cons _ _ _ _ head tail, by simpa using hp⟩
  · constructor
    · rintro ⟨piece, rest, s, later, hcs, lead, tail, hs⟩
      rw [pieces_cons_of_ne hc hp] at hcs
      obtain ⟨rfl, rfl⟩ := List.cons.inj hcs
      obtain ⟨next, hnext, lead⟩ := (Cursor.leads_cons_iff r.finished _ position hc _ s).1 lead
      exact ⟨_, hnext, first, others, s, later, hp, lead, tail, hs⟩
    · rintro ⟨⟨finished, cursor⟩, hnext, piece, rest, s, later, hcs, lead, tail, hs⟩
      obtain rfl : finished = r.finished := finished_of_step hc hnext
      exact ⟨c :: piece, rest, s, later, pieces_cons_of_ne hc hcs,
        (Cursor.leads_cons_iff _ _ position hc _ s).2 ⟨cursor, hnext, lead⟩, tail, hs⟩

/-- A run succeeds exactly on what may follow its place. -/
theorem Reading.run_eq_ok_iff (r : Reading) (position : Nat) (cs : List Char) (p : Path) :
    r.run position cs = .ok p ↔ r.Leads cs p := by
  induction cs generalizing r position with
  | nil => exact (r.leads_nil_iff p).symm
  | cons c cs ih =>
    rw [r.leads_cons_iff position, run]
    cases h : r.step position c with
    | error e => simp
    | ok next => simp [ih]

/-- The reader reads exactly the texts that denote a path, and reads them as that path. -/
theorem read_eq_ok_iff_denotes (text : String) (p : Path) :
    read text = .ok p ↔ Denotes text p := by
  rw [read, Reading.run_eq_ok_iff]
  constructor
  · rintro ⟨piece, rest, s, later, hp, head, tail, hs⟩
    rw [Denotes, hp, hs]
    exact .cons _ _ _ _ head tail
  · intro h
    unfold Denotes at h
    obtain ⟨piece, rest, hp⟩ := List.exists_cons_of_ne_nil (pieces_ne_nil text.toList)
    obtain ⟨s, later, hs⟩ := List.exists_cons_of_ne_nil p.nonempty
    rw [hp, hs] at h
    obtain - | ⟨_, _, _, _, head, tail⟩ := h
    exact ⟨piece, rest, s, later, hp, head, tail, hs⟩

/-- Texts joined by a dot are read as one path after the other. -/
theorem read_append {s t : String} {p q : Path} (hs : read s = .ok p) (ht : read t = .ok q) :
    read (s ++ "." ++ t) = .ok (p ++ q) := by
  rw [read_eq_ok_iff_denotes] at *
  exact hs.append ht

/-- A position written behind a text is read as one more position of its last segment. -/
theorem read_index {s : String} {p : Path} (hs : read s = .ok p) (index : UInt64) :
    read (s ++ "[" ++ toString index.toNat ++ "]") = .ok (p.extend [index]) := by
  have hl := isSuffixes_indexChars [index]
  have htext : s ++ "[" ++ toString index.toNat ++ "]" =
      s ++ String.ofList ([index].flatMap Segment.indexChars) := by
    rw [← String.toList_inj]
    simp [Segment.indexChars]
  rw [htext]
  rw [read_eq_ok_iff_denotes] at *
  exact hs.extend hl

/-- Pieces spell a list of segments exactly when each of them spells a segment. -/
theorem exists_segments_iff (pieces : List (List Char)) :
    (∃ segments, List.Forall₂ IsPiece pieces segments) ↔
      ∀ piece ∈ pieces, ∃ s, IsPiece piece s := by
  induction pieces with
  | nil => simp
  | cons piece pieces ih =>
    rw [List.forall_mem_cons, ← ih]
    constructor
    · rintro ⟨segments, h⟩
      obtain ⟨s, later, hs, hlater, -⟩ := List.forall₂_cons_left_iff.1 h
      exact ⟨⟨s, hs⟩, later, hlater⟩
    · rintro ⟨⟨s, hs⟩, later, hlater⟩
      exact ⟨s :: later, .cons hs hlater⟩

/-- A text is read exactly when, split at its dots, every piece is a name followed by bracketed
digits. The path then has one segment for each piece, with its name and the values of its digits. -/
theorem read_ok_iff_split_pieces (text : String) :
    ((∃ p, read text = .ok p) ↔ ∀ piece ∈ text.toList.splitOn '.', ∃ s, IsPiece piece s) ∧
    ∀ p, read text = .ok p ↔ List.Forall₂ IsPiece (text.toList.splitOn '.') p.segments := by
  have hread : ∀ p, read text = .ok p ↔
      List.Forall₂ IsPiece (text.toList.splitOn '.') p.segments := by
    intro p
    rw [read_eq_ok_iff_denotes, Denotes, spells_iff_forall₂, pieces_eq_splitOn]
  refine ⟨?_, hread⟩
  rw [← exists_segments_iff]
  constructor
  · rintro ⟨p, hp⟩
    exact ⟨p.segments, (hread p).1 hp⟩
  · rintro ⟨segments, hsegments⟩
    have hne : segments ≠ [] := by
      rintro rfl
      exact List.splitOn_ne_nil '.' text.toList (List.forall₂_nil_right_iff.1 hsegments)
    exact ⟨⟨segments, hne⟩, (hread _).2 hsegments⟩

end Path

end TreePath
