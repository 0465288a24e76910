import Mathlib.Data.List.Forall2
import TreePath.Path.Reader

/-!
Laws of the grammar of paths. Pieces come apart at dots and nowhere else, bracketed positions can
be added behind the last piece, and a segment with a proper name is spelled by its own characters.
-/

namespace TreePath

namespace Path

/-- The pieces of a text are those of the list function that splits at an element. -/
theorem pieces_eq_splitOn (cs : List Char) : pieces cs = cs.splitOn '.' := by
  induction cs with
  | nil => rfl
  | cons c cs ih =>
    by_cases hc : c = '.'
    · simp [pieces, hc, ih, List.splitOn_cons_eq_if_modifyHead]
    · obtain ⟨piece, rest, hp⟩ := List.exists_cons_of_ne_nil (List.splitOn_ne_nil '.' cs)
      simp [pieces, hc, ih, hp, List.splitOn_cons_eq_if_modifyHead]

theorem pieces_ne_nil (cs : List Char) : pieces cs ≠ [] := by
  rw [pieces_eq_splitOn]
  exact List.splitOn_ne_nil '.' cs

/-- A dot ends a piece. -/
@[simp] theorem pieces_cons_dot (cs : List Char) : pieces ('.' :: cs) = [] :: pieces cs := by
  simp [pieces]

/-- A character that is no dot belongs to the first piece. -/
theorem pieces_cons_of_ne {c : Char} {cs piece : List Char} {rest : List (List Char)}
    (hc : c ≠ '.') (h : pieces cs = piece :: rest) : pieces (c :: cs) = (c :: piece) :: rest := by
  simp [pieces, hc, h]

theorem pieces_append_dot (s t : List Char) : pieces (s ++ '.' :: t) = pieces s ++ pieces t := by
  simp only [pieces_eq_splitOn, List.splitOn_append_cons_self]

/-- Characters without a dot go to the last piece. -/
theorem pieces_append_plain (s t : List Char) (h : '.' ∉ t) :
    ∃ done last, pieces s = done ++ [last] ∧ pieces (s ++ t) = done ++ [last ++ t] := by
  induction s with
  | nil => exact ⟨[], [], rfl, by simp [pieces_eq_splitOn, List.splitOn_eq_singleton h]⟩
  | cons c s ih =>
    obtain ⟨done, last, hs, hst⟩ := ih
    by_cases hc : c = '.'
    · subst hc
      exact ⟨[] :: done, last, by simp [hs], by simp [hst]⟩
    · cases done with
      | nil =>
        exact ⟨[], c :: last, pieces_cons_of_ne hc hs, pieces_cons_of_ne hc hst⟩
      | cons piece done =>
        exact ⟨(c :: piece) :: done, last, pieces_cons_of_ne hc hs, pieces_cons_of_ne hc hst⟩

/-- No piece holds a dot. -/
theorem dot_not_mem_piece {cs piece : List Char} (h : piece ∈ pieces cs) : '.' ∉ piece := by
  induction cs generalizing piece with
  | nil =>
    rw [List.mem_singleton.1 h]
    exact List.not_mem_nil
  | cons c cs ih =>
    by_cases hc : c = '.'
    · subst hc
      rw [pieces_cons_dot, List.mem_cons] at h
      obtain rfl | h := h
      · exact List.not_mem_nil
      · exact ih h
    · obtain ⟨first, rest, hp⟩ := List.exists_cons_of_ne_nil (pieces_ne_nil cs)
      rw [pieces_cons_of_ne hc hp, List.mem_cons] at h
      obtain rfl | h := h
      · have hfirst := ih (hp ▸ List.mem_cons_self)
        simp [Ne.symm hc, hfirst]
      · exact ih (hp ▸ List.mem_cons_of_mem first h)

theorem spells_iff_forall₂ (pieces : List (List Char)) (segments : List Segment) :
    Spells pieces segments ↔ List.Forall₂ IsPiece pieces segments := by
  constructor
  · intro h
    induction h with
    | nil => exact .nil
    | cons piece segment pieces segments head _ ih => exact .cons head ih
  · intro h
    induction h with
    | nil => exact .nil
    | cons head _ ih => exact .cons _ _ _ _ head ih

/-- Texts that spell segments may be joined by a dot. -/
theorem Denotes.append {s t : String} {p q : Path} (hs : Denotes s p) (ht : Denotes t q) :
    Denotes (s ++ "." ++ t) (p ++ q) := by
  have hsplit : (s ++ "." ++ t).toList = s.toList ++ '.' :: t.toList := by simp
  unfold Denotes at *
  rw [hsplit, pieces_append_dot, segments_append]
  rw [spells_iff_forall₂] at *
  exact List.rel_append hs ht

/-- Nothing is spelled by no characters. -/
theorem isSuffixes_nil_iff {indices : List UInt64} : IsSuffixes [] indices ↔ indices = [] := by
  constructor
  · rintro ⟨⟩
    rfl
  · rintro rfl
    exact .none

theorem IsSuffixes.append {cs ds : List Char} {indices later : List UInt64}
    (h : IsSuffixes cs indices) (hl : IsSuffixes ds later) :
    IsSuffixes (cs ++ ds) (indices ++ later) := by
  induction h with
  | none => exact hl
  | more digits rest index indices nonempty decimal value _ ih =>
    have h := IsSuffixes.more digits (rest ++ ds) index (indices ++ later) nonempty decimal value ih
    simpa using h

/-- Positions are written without a dot. -/
theorem IsSuffixes.dot_not_mem {cs : List Char} {indices : List UInt64}
    (h : IsSuffixes cs indices) : '.' ∉ cs := by
  induction h with
  | none => exact List.not_mem_nil
  | more digits rest index indices nonempty decimal value _ ih =>
    have hdigits : '.' ∉ digits := by
      intro hdot
      have hdigit := decimal '.' hdot
      simp at hdigit
    simp [hdigits, ih]

/-- The digits of a position are read as that position. -/
theorem isSuffixes_indexChars (indices : List UInt64) :
    IsSuffixes (indices.flatMap Segment.indexChars) indices := by
  induction indices with
  | nil => exact .none
  | cons index indices ih =>
    have hdigits : ∀ c ∈ Nat.toDigits 10 index.toNat, c.isDigit := by
      intro c hc
      exact Nat.isDigit_of_mem_toDigits (by decide) (by decide) hc
    have h := IsSuffixes.more _ _ index indices Nat.toDigits_ne_nil hdigits
      (digitsValue_toDigits index.toNat) ih
    simpa [Segment.indexChars] using h

/-- More positions may follow a piece. -/
theorem IsPiece.append {cs ds : List Char} {s : Segment} {later : List UInt64}
    (h : IsPiece cs s) (hl : IsSuffixes ds later) :
    IsPiece (cs ++ ds) ⟨s.property, s.indices ++ later⟩ := by
  cases h with
  | intro name suffixes indices nonempty plain tail =>
    rw [List.append_assoc]
    exact .intro name (suffixes ++ ds) (indices ++ later) nonempty plain (tail.append hl)

/-- The last of the pieces spells the last of the segments. -/
theorem Spells.concat {done : List (List Char)} {last : List Char} {segments : List Segment}
    (h : Spells (done ++ [last]) segments) :
    ∃ earlier s, segments = earlier ++ [s] ∧ Spells done earlier ∧ IsPiece last s := by
  induction done generalizing segments with
  | nil =>
    obtain - | ⟨_, s, _, _, head, tail⟩ := h
    cases tail
    exact ⟨[], s, rfl, .nil, head⟩
  | cons piece done ih =>
    obtain - | ⟨_, s, _, segments, head, tail⟩ := h
    obtain ⟨earlier, last, rfl, hdone, hlast⟩ := ih tail
    exact ⟨s :: earlier, last, rfl, .cons _ _ _ _ head hdone, hlast⟩

def extend (p : Path) (later : List UInt64) : Path where
  segments := p.segments.dropLast ++ [⟨(p.segments.getLast p.nonempty).property,
    (p.segments.getLast p.nonempty).indices ++ later⟩]
  nonempty := by simp

theorem segments_extend {p : Path} {earlier : List Segment} {s : Segment}
    (h : p.segments = earlier ++ [s]) (later : List UInt64) :
    (p.extend later).segments = earlier ++ [⟨s.property, s.indices ++ later⟩] := by
  simp [extend, h]

/-- Positions may be written behind a text. -/
theorem Denotes.extend {text : String} {p : Path} (h : Denotes text p) {cs : List Char}
    {later : List UInt64} (hl : IsSuffixes cs later) :
    Denotes (text ++ String.ofList cs) (p.extend later) := by
  obtain ⟨done, last, htext, hmore⟩ := pieces_append_plain text.toList cs hl.dot_not_mem
  unfold Denotes at *
  rw [htext] at h
  obtain ⟨earlier, s, hs, hdone, hlast⟩ := h.concat
  rw [String.toList_append, String.toList_ofList, hmore, segments_extend hs]
  rw [spells_iff_forall₂] at *
  exact List.rel_append hdone (.cons (hlast.append hl) .nil)

end Path

end TreePath
