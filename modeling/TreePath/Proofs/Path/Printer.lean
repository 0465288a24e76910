import TreePath.Proofs.Number.Numeral
import TreePath.Proofs.Path.Reader

/-!
The text of a path. Printing and reading are inverse exactly on the paths whose names the grammar can
spell, which are the paths the reader gives.
-/

namespace TreePath

/-- Whether a text can spell the name: it is not empty, and no dot or bracket divides it. -/
def Segment.IsPlain (s : Segment) : Prop :=
  s.property ≠ "" ∧ '.' ∉ s.property.toList ∧ '[' ∉ s.property.toList

instance (s : Segment) : Decidable s.IsPlain :=
  inferInstanceAs (Decidable (s.property ≠ "" ∧ '.' ∉ s.property.toList ∧ '[' ∉ s.property.toList))

namespace Path

/-- A segment with a plain name is spelled by its own characters. -/
theorem isPiece_chars {s : Segment} (h : s.IsPlain) : IsPiece s.chars s := by
  obtain ⟨hne, -, hb⟩ := h
  have hname : s.property.toList ≠ [] := by simpa using hne
  have hp := IsPiece.intro s.property.toList _ s.indices hname hb (isSuffixes_indexChars s.indices)
  rwa [String.ofList_toList] at hp

theorem dot_not_mem_chars {s : Segment} (h : s.IsPlain) : '.' ∉ s.chars := by
  rw [Segment.chars, List.mem_append, not_or]
  exact ⟨h.2.1, (isSuffixes_indexChars s.indices).dot_not_mem⟩

/-- A path of plain names is denoted by its text. -/
theorem denotes_text {p : Path} (h : ∀ s ∈ p.segments, s.IsPlain) : Denotes p.text p := by
  have hdot : ∀ piece ∈ p.segments.map Segment.chars, '.' ∉ piece := by
    intro piece hpiece
    obtain ⟨s, hs, rfl⟩ := List.mem_map.1 hpiece
    exact dot_not_mem_chars (h s hs)
  have hne : p.segments.map Segment.chars ≠ [] := by simp [p.nonempty]
  rw [Denotes, text, String.toList_ofList, chars, pieces_eq_splitOn,
    List.splitOn_intercalate '.' hdot hne, spells_iff_forall₂, List.forall₂_map_left_iff,
    List.forall₂_same]
  intro s hs
  exact isPiece_chars (h s hs)

/-- A piece without a dot spells a plain name. -/
theorem IsPiece.isPlain {piece : List Char} {s : Segment} (h : IsPiece piece s)
    (hdot : '.' ∉ piece) : s.IsPlain := by
  cases h with
  | intro name suffixes indices nonempty plain tail =>
    refine ⟨by simpa using nonempty, ?_, by simpa using plain⟩
    intro hmem
    rw [String.toList_ofList] at hmem
    exact hdot (List.mem_append_left suffixes hmem)

/-- A text denotes no other paths than those of plain names. -/
theorem Denotes.isPlain {text : String} {p : Path} (h : Denotes text p) :
    ∀ s ∈ p.segments, s.IsPlain := by
  have hdot : ∀ piece ∈ pieces text.toList, '.' ∉ piece := fun _ => dot_not_mem_piece
  unfold Denotes at h
  generalize pieces text.toList = ps, p.segments = segments at h hdot
  induction h with
  | nil => simp
  | cons piece s ps segments head _ ih =>
    obtain ⟨hpiece, hps⟩ := List.forall_mem_cons.1 hdot
    exact List.forall_mem_cons.2 ⟨head.isPlain hpiece, ih hps⟩

theorem read_text_eq_ok_iff (p : Path) : read p.text = .ok p ↔ ∀ s ∈ p.segments, s.IsPlain := by
  rw [read_eq_ok_iff_denotes]
  exact ⟨Denotes.isPlain, denotes_text⟩

/-- A path that is read from some text is also read from its own. -/
theorem read_text_of_read {text : String} {p : Path} (h : read text = .ok p) :
    read p.text = .ok p :=
  (read_text_eq_ok_iff p).2 ((read_eq_ok_iff_denotes text p).1 h).isPlain

/-- A path of any segments is read back from its text exactly when all its names are plain; these
are the paths that the reader gives, and no two of them are printed alike. -/
theorem read_text_iff_isPlain (segments : List Segment) (nonempty : segments ≠ []) :
    ∃ p, ofSegments? segments = some p ∧
      (read p.text = .ok p ↔ ∀ s ∈ segments, s.IsPlain) ∧
      ((∃ text, read text = .ok p) ↔ ∀ s ∈ segments, s.IsPlain) ∧
      ∀ q, (∃ text, read text = .ok p) → (∃ text, read text = .ok q) → p.text = q.text → p = q := by
  refine ⟨⟨segments, nonempty⟩, dif_pos nonempty, read_text_eq_ok_iff _, ⟨?_, ?_⟩, ?_⟩
  · rintro ⟨text, h⟩
    exact (read_text_eq_ok_iff _).1 (read_text_of_read h)
  · intro h
    exact ⟨_, (read_text_eq_ok_iff _).2 h⟩
  · rintro q ⟨s, hs⟩ ⟨t, ht⟩ htext
    have hp := read_text_of_read hs
    rw [htext, read_text_of_read ht] at hp
    exact (Except.ok.inj hp).symm

/-- Brackets that close, blanks and the largest word are read back. -/
theorem read_text_iff_isPlain_closing_bracket :
    [Segment.mk "a] é" [0, 18446744073709551615], Segment.mk "0" []] ≠ [] ∧
    ∃ p, ofSegments? [Segment.mk "a] é" [0, 18446744073709551615], Segment.mk "0" []] = some p ∧
      read p.text = .ok p := by
  refine ⟨by simp, ?_⟩
  obtain ⟨p, hp, hread, -⟩ := read_text_iff_isPlain
    [Segment.mk "a] é" [0, 18446744073709551615], Segment.mk "0" []] (by simp)
  exact ⟨p, hp, hread.2 (by decide)⟩

/-!
The canonical writing of a path. A text differs from the text of the path that is read from it in
the superfluous zeros of its positions, and in nothing else.
-/

/-- Leaves out every zero that stands in front of another digit where a run of digits begins: behind
an opening bracket, or behind a zero left out there. -/
def dropZeros : Bool → List Char → List Char
  | _, [] => []
  | fresh, c :: cs =>
    if fresh ∧ c = '0' ∧ cs.head?.any Char.isDigit then dropZeros true cs
    else c :: dropZeros (c = '[') cs

/-- The text without the superfluous zeros of its positions. -/
def canonical (text : String) : String := String.ofList (dropZeros false text.toList)

/-- Some position is written with a superfluous zero: a zero behind an opening bracket, and in front of
another digit. -/
def HasLeadingZero (text : String) : Prop :=
  ∃ d : Char, d.isDigit ∧ ['[', '0', d] <:+: text.toList

/-- A character that is no digit divides a text: what stands in front of it does not matter for
what stands behind it. -/
theorem dropZeros_append {c : Char} (hc : c.isDigit = false) (fresh : Bool) (cs ds : List Char) :
    dropZeros fresh (cs ++ c :: ds) = dropZeros fresh cs ++ c :: dropZeros (c = '[') ds := by
  induction cs generalizing fresh with
  | nil =>
    have hzero : c ≠ '0' := by
      rintro rfl
      contradiction
    simp [dropZeros, hzero]
  | cons d cs ih =>
    have hhead : (cs ++ c :: ds).head?.any Char.isDigit = cs.head?.any Char.isDigit := by
      cases cs <;> simp [hc]
    simp only [List.cons_append, dropZeros, hhead, ih]
    split <;> rfl

/-- Names keep their zeros. -/
theorem dropZeros_name {name : List Char} (h : '[' ∉ name) (rest : List Char) :
    dropZeros false (name ++ rest) = name ++ dropZeros false rest := by
  induction name with
  | nil => rfl
  | cons c name ih =>
    obtain ⟨hc, hname⟩ := not_or.1 (mt List.mem_cons.2 h)
    simp [dropZeros, ih hname, Ne.symm hc]

/-- Digits without superfluous zeros are the digits of their value. -/
theorem dropZeros_digits {digits : List Char} (nonempty : digits ≠ [])
    (decimal : ∀ c ∈ digits, c.isDigit) :
    dropZeros true digits = Nat.toDigits 10 (digitsValue digits) := by
  induction digits with
  | nil => contradiction
  | cons c digits ih =>
    have htail := (List.forall_mem_cons.1 decimal).2
    by_cases hzero : c = '0'
    · subst hzero
      cases digits with
      | nil => rfl
      | cons d digits =>
        have hd := (List.forall_mem_cons.1 htail).1
        have hdrop : dropZeros true ('0' :: d :: digits) = dropZeros true (d :: digits) := by
          simp [dropZeros, hd]
        exact hdrop.trans (ih (List.cons_ne_nil d digits) htail)
    · -- A first digit other than zero begins the digits of the value.
      have hplain : '[' ∉ c :: digits := by
        intro hmem
        have hbracket := decimal '[' hmem
        contradiction
      have hdrop : dropZeros true (c :: digits) = dropZeros false (c :: digits ++ []) := by
        simp [dropZeros, hzero]
      rw [hdrop, dropZeros_name hplain, toDigits_digitsValue hzero decimal]
      simp [dropZeros]

theorem dropZeros_suffixes {cs : List Char} {indices : List UInt64} (h : IsSuffixes cs indices) :
    dropZeros false cs = indices.flatMap Segment.indexChars := by
  induction h with
  | none => rfl
  | more digits rest index indices nonempty decimal value _ ih =>
    have hopen : dropZeros false ('[' :: digits ++ ']' :: rest) =
        '[' :: dropZeros true (digits ++ ']' :: rest) := by simp [dropZeros]
    rw [hopen, dropZeros_append rfl, dropZeros_digits nonempty decimal, value]
    simp [Segment.indexChars, ih]

/-- A piece without superfluous zeros is the text of its segment. -/
theorem dropZeros_piece {piece : List Char} {s : Segment} (h : IsPiece piece s) :
    dropZeros false piece = s.chars := by
  cases h with
  | intro name suffixes indices nonempty plain tail =>
    rw [dropZeros_name plain, dropZeros_suffixes tail, Segment.chars, String.toList_ofList]

/-- Pieces lose their zeros one by one. -/
theorem dropZeros_intercalate {ps : List (List Char)} {segments : List Segment}
    (h : Spells ps segments) :
    dropZeros false (['.'].intercalate ps) = ['.'].intercalate (segments.map Segment.chars) := by
  induction h with
  | nil => rfl
  | cons piece s ps segments head tail ih =>
    cases tail with
    | nil => simpa using dropZeros_piece head
    | cons next t rest later head' tail' =>
      rw [List.map_cons, List.map_cons, List.intercalate_cons_cons, List.intercalate_cons_cons,
        List.append_assoc, List.append_assoc, List.singleton_append, dropZeros_append rfl,
        dropZeros_piece head]
      rw [List.map_cons] at ih
      simpa using ih

/-- A path is printed as the text that it was read from, less the superfluous zeros. -/
theorem text_of_read {s : String} {p : Path} (h : read s = .ok p) : p.text = canonical s := by
  have hspells := (read_eq_ok_iff_denotes s p).1 h
  unfold Denotes at hspells
  have hdrop := dropZeros_intercalate hspells
  rw [pieces_eq_splitOn, List.intercalate_splitOn] at hdrop
  rw [canonical, hdrop, text, chars]

example : canonical "a0[007][0].00[000]" = "a0[7][0].00[0]" := by decide

theorem length_dropZeros_le (fresh : Bool) (cs : List Char) :
    (dropZeros fresh cs).length ≤ cs.length := by
  induction cs generalizing fresh with
  | nil => exact Nat.le_refl 0
  | cons c cs ih =>
    rw [dropZeros]
    split
    · exact Nat.le_succ_of_le (ih true)
    · exact Nat.succ_le_succ (ih _)

theorem head?_any_isDigit_iff {cs : List Char} :
    cs.head?.any Char.isDigit = true ↔ ∃ d : Char, d.isDigit ∧ [d] <+: cs := by
  cases cs with
  | nil => simp
  | cons c cs => simp [List.cons_prefix_cons]

/-- Characters lose no zero exactly where none is superfluous, behind a bracket or in front. -/
theorem dropZeros_eq_self_iff (fresh : Bool) (cs : List Char) : dropZeros fresh cs = cs ↔
    ∀ d : Char, d.isDigit → ¬ ['[', '0', d] <:+: cs ∧ (fresh = true → ¬ ['0', d] <+: cs) := by
  induction cs generalizing fresh with
  | nil => simp [dropZeros]
  | cons c cs ih =>
    by_cases hdrop : fresh ∧ c = '0' ∧ cs.head?.any Char.isDigit
    · obtain ⟨hfresh, rfl, hhead⟩ := hdrop
      obtain ⟨d, hd, hprefix⟩ := head?_any_isDigit_iff.1 hhead
      rw [dropZeros, if_pos ⟨hfresh, rfl, hhead⟩]
      apply iff_of_false
      · intro h
        have hlength := length_dropZeros_le true cs
        rw [h, List.length_cons] at hlength
        omega
      · intro h
        exact (h d hd).2 hfresh (List.cons_prefix_cons.2 ⟨rfl, hprefix⟩)
    · rw [dropZeros, if_neg hdrop, List.cons_inj_right, ih]
      apply forall₂_congr
      intro d hd
      have hfront : fresh = true → ¬ ['0', d] <+: c :: cs := by
        rintro hfresh hprefix
        obtain ⟨rfl, htail⟩ := List.cons_prefix_cons.1 hprefix
        exact hdrop ⟨hfresh, rfl, head?_any_isDigit_iff.2 ⟨d, hd, htail⟩⟩
      rw [List.infix_cons_iff, List.cons_prefix_cons, decide_eq_true_iff, @eq_comm _ c]
      tauto

/-- A text is its own canonical writing exactly where no position has a superfluous zero. -/
theorem canonical_eq_self_iff (text : String) : canonical text = text ↔ ¬ HasLeadingZero text := by
  have hlist : canonical text = text ↔ dropZeros false text.toList = text.toList := by
    rw [canonical, ← String.toList_inj, String.toList_ofList]
  rw [hlist, dropZeros_eq_self_iff]
  simp [HasLeadingZero]

end Path

end TreePath
