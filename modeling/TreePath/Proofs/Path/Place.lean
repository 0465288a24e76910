import Mathlib.Data.List.Induction
import TreePath.Proofs.Path.Reader

/-!
The grammar of paths with positions of any size, and the places at which a text of it may break off.
A finite machine knows the place behind every beginning of such a text, and it refuses a character
exactly where no text of the grammar goes on with it.
-/

namespace TreePath

namespace Path

def IsRun (digits : List Char) : Prop := digits ≠ [] ∧ ∀ c ∈ digits, c.isDigit

inductive IsBrackets : List Char → Prop where
  | none : IsBrackets []
  | more (digits rest : List Char) (run : IsRun digits) (tail : IsBrackets rest) :
      IsBrackets ('[' :: digits ++ ']' :: rest)

/-- A name and bracketed runs of digits. -/
inductive IsShape : List Char → Prop where
  | intro (name suffixes : List Char) (nonempty : name ≠ []) (plain : '[' ∉ name)
      (tail : IsBrackets suffixes) : IsShape (name ++ suffixes)

/-- The texts of the grammar: between its dots there are names with bracketed runs of digits. -/
def Shaped (cs : List Char) : Prop := ∀ piece ∈ pieces cs, IsShape piece

/-- The beginnings of texts of the grammar. -/
def Viable (cs : List Char) : Prop := ∃ rest, Shaped (cs ++ rest)

section Shape

variable {cs ds : List Char}

theorem IsBrackets.append (h : IsBrackets cs) (hd : IsBrackets ds) : IsBrackets (cs ++ ds) := by
  induction h with
  | none => exact hd
  | more digits rest run _ ih => simpa using IsBrackets.more digits (rest ++ ds) run ih

theorem IsShape.append (h : IsShape cs) (hd : IsBrackets ds) : IsShape (cs ++ ds) := by
  cases h with
  | intro name suffixes nonempty plain tail =>
    rw [List.append_assoc]
    exact .intro name (suffixes ++ ds) nonempty plain (tail.append hd)

/-- Positions that fit a word are positions. -/
theorem IsSuffixes.isBrackets {indices : List UInt64} (h : IsSuffixes cs indices) :
    IsBrackets cs := by
  induction h with
  | none => exact .none
  | more digits rest _ _ nonempty decimal _ _ ih => exact .more digits rest ⟨nonempty, decimal⟩ ih

/-- A text that denotes a path is a text of the grammar. -/
theorem Denotes.shaped {text : String} {p : Path} (h : Denotes text p) : Shaped text.toList := by
  unfold Denotes at h
  rw [spells_iff_forall₂] at h
  intro piece hpiece
  obtain ⟨s, hs⟩ := (exists_segments_iff _).1 ⟨_, h⟩ piece hpiece
  cases hs with
  | intro name suffixes indices nonempty plain tail =>
    exact .intro name suffixes nonempty plain tail.isBrackets

/-- A run of digits in brackets may be written behind a text. -/
theorem Shaped.bracketed (h : Shaped cs) {digits : List Char} (run : IsRun digits) :
    Shaped (cs ++ '[' :: digits ++ [']']) := by
  have hdot : '.' ∉ '[' :: digits ++ [']'] := by
    intro hmem
    have hdigits : '.' ∈ digits := by simpa using hmem
    have hdigit := run.2 '.' hdigits
    contradiction
  obtain ⟨done, last, hcs, hmore⟩ := pieces_append_plain cs _ hdot
  unfold Shaped at *
  rw [hcs, List.forall_mem_append, List.forall_mem_singleton] at h
  rw [List.append_assoc, hmore, List.forall_mem_append, List.forall_mem_singleton]
  exact ⟨h.1, h.2.append (.more digits [] run .none)⟩

/-- Texts behind which a piece begins. -/
def Opens (cs : List Char) : Prop := cs = [] ∨ ∃ done, Shaped done ∧ cs = done ++ ['.']

/-- Where a piece begins a name may be written. -/
theorem Opens.named (h : Opens cs) {letters : List Char} (nonempty : letters ≠ [])
    (hdot : '.' ∉ letters) (hbracket : '[' ∉ letters) : Shaped (cs ++ letters) := by
  have hshape : IsShape letters := by
    simpa using IsShape.intro letters [] nonempty hbracket .none
  have hpiece : Shaped letters := by
    unfold Shaped
    rw [pieces_eq_splitOn, List.splitOn_eq_singleton hdot, List.forall_mem_singleton]
    exact hshape
  rcases h with rfl | ⟨done, hdone, rfl⟩
  · exact hpiece
  · unfold Shaped
    rw [List.append_assoc, List.singleton_append, pieces_append_dot, List.forall_mem_append]
    exact ⟨hdone, hpiece⟩

end Shape

/-- Where a beginning of a text breaks off: before a piece, in a name, behind an opening bracket, in
the digits of a position, or behind a closing bracket. -/
inductive Place where
  | start
  | name
  | bracket
  | digits
  | closed
  deriving DecidableEq, Repr

namespace Place

def next? : Place → Char → Option Place
  | .start, c => if c = '.' ∨ c = '[' then none else some .name
  | .name, c => some (if c = '.' then .start else if c = '[' then .bracket else .name)
  | .bracket, c => if c.isDigit then some .digits else none
  | .digits, c => if c.isDigit then some .digits else if c = ']' then some .closed else none
  | .closed, c => if c = '[' then some .bracket else if c = '.' then some .start else none

def after? (place : Place) (cs : List Char) : Option Place := cs.foldlM next? place

def ends : Place → Bool
  | .name | .closed => true
  | .start | .bracket | .digits => false

/-- The texts that break off at the place. -/
def Stands : Place → List Char → Prop
  | .start, cs => Opens cs
  | .name, cs => ∃ front letters, Opens front ∧ letters ≠ [] ∧ '.' ∉ letters ∧ '[' ∉ letters ∧
      cs = front ++ letters
  | .bracket, cs => ∃ done, Shaped done ∧ cs = done ++ ['[']
  | .digits, cs => ∃ done digits, Shaped done ∧ IsRun digits ∧ cs = done ++ '[' :: digits
  | .closed, cs => ∃ done digits, Shaped done ∧ IsRun digits ∧ cs = done ++ '[' :: digits ++ [']']

@[simp] theorem after?_nil (place : Place) : place.after? [] = some place := rfl

@[simp] theorem after?_cons (place : Place) (c : Char) (cs : List Char) :
    place.after? (c :: cs) = (place.next? c).bind fun next => next.after? cs := rfl

theorem after?_append (place : Place) (cs ds : List Char) :
    place.after? (cs ++ ds) = (place.after? cs).bind fun next => next.after? ds :=
  List.foldlM_append

theorem after?_concat (place : Place) (cs : List Char) (c : Char) :
    place.after? (cs ++ [c]) = (place.after? cs).bind fun next => next.next? c := by
  simp [after?_append]

/-- Where a text may end, a dot starts a piece and a bracket opens a position. -/
theorem next?_of_ends {place : Place} (h : place.ends = true) :
    place.next? '.' = some .start ∧ place.next? '[' = some .bracket := by
  cases place <;> simp_all [ends, next?]

theorem after?_letters {letters : List Char} (hdot : '.' ∉ letters) (hbracket : '[' ∉ letters) :
    after? .name letters = some .name := by
  induction letters with
  | nil => rfl
  | cons c letters ih =>
    simp only [List.mem_cons, not_or] at hdot hbracket
    simp [next?, Ne.symm hdot.1, Ne.symm hbracket.1, ih hdot.2 hbracket.2]

theorem after?_name {letters : List Char} (nonempty : letters ≠ []) (hdot : '.' ∉ letters)
    (hbracket : '[' ∉ letters) : after? .start letters = some .name := by
  obtain ⟨c, letters, rfl⟩ := List.exists_cons_of_ne_nil nonempty
  simp only [List.mem_cons, not_or] at hdot hbracket
  simp [next?, Ne.symm hdot.1, Ne.symm hbracket.1, after?_letters hdot.2 hbracket.2]

theorem after?_digits {digits : List Char} (decimal : ∀ c ∈ digits, c.isDigit) :
    after? .digits digits = some .digits := by
  induction digits with
  | nil => rfl
  | cons c digits ih =>
    obtain ⟨hc, decimal⟩ := List.forall_mem_cons.1 decimal
    simp [next?, hc, ih decimal]

theorem after?_run {digits : List Char} (run : IsRun digits) :
    after? .bracket digits = some .digits := by
  obtain ⟨nonempty, decimal⟩ := run
  obtain ⟨c, digits, rfl⟩ := List.exists_cons_of_ne_nil nonempty
  obtain ⟨hc, decimal⟩ := List.forall_mem_cons.1 decimal
  simp [next?, hc, after?_digits decimal]

/-- Behind an end, a bracket and digits are a position that is not closed yet. -/
theorem after?_position {place : Place} (hends : place.ends = true) {digits : List Char}
    (run : IsRun digits) : place.after? ('[' :: digits) = some .digits := by
  simp [(next?_of_ends hends).2, after?_run run]

theorem next?_close : next? .digits ']' = some .closed := by decide

/-- Bracketed runs lead from an end to an end. -/
theorem after?_brackets {cs : List Char} (h : IsBrackets cs) {place : Place}
    (hends : place.ends = true) : ∃ last, place.after? cs = some last ∧ last.ends = true := by
  induction h generalizing place with
  | none => exact ⟨place, rfl, hends⟩
  | more digits rest run _ ih =>
    obtain ⟨last, hlast, hends'⟩ := ih (show ends .closed = true from rfl)
    refine ⟨last, ?_, hends'⟩
    rw [after?_append, after?_position hends run]
    simp [next?_close, hlast]

theorem after?_shape {cs : List Char} (h : IsShape cs) (hdot : '.' ∉ cs) :
    ∃ last, after? .start cs = some last ∧ last.ends = true := by
  cases h with
  | intro name suffixes nonempty plain tail =>
    rw [List.mem_append, not_or] at hdot
    obtain ⟨last, hlast, hends⟩ := after?_brackets tail (show ends .name = true from rfl)
    exact ⟨last, by simp [after?_append, after?_name nonempty hdot.1 plain, hlast], hends⟩

/-- Pieces joined by dots lead to an end. -/
theorem after?_intercalate (ps : List (List Char)) (hne : ps ≠ [])
    (h : ∀ piece ∈ ps, IsShape piece ∧ '.' ∉ piece) :
    ∃ last, after? .start (['.'].intercalate ps) = some last ∧ last.ends = true := by
  induction ps with
  | nil => contradiction
  | cons piece ps ih =>
    obtain ⟨hpiece, hps⟩ := List.forall_mem_cons.1 h
    obtain ⟨place, hplace, hends⟩ := after?_shape hpiece.1 hpiece.2
    cases ps with
    | nil => exact ⟨place, by simpa using hplace, hends⟩
    | cons next ps =>
      obtain ⟨last, hlast, hends'⟩ := ih (List.cons_ne_nil next ps) hps
      refine ⟨last, ?_, hends'⟩
      rw [List.intercalate_cons_cons, List.append_assoc, after?_append, hplace]
      simp [(next?_of_ends hends).1, hlast]

/-- The machine takes every text of the grammar to a place where it may end. -/
theorem after?_of_shaped {cs : List Char} (h : Shaped cs) :
    ∃ last, after? .start cs = some last ∧ last.ends = true := by
  have hjoin := after?_intercalate (pieces cs) (pieces_ne_nil cs) fun piece hpiece =>
    ⟨h piece hpiece, dot_not_mem_piece hpiece⟩
  rwa [pieces_eq_splitOn, List.intercalate_splitOn] at hjoin

theorem after?_of_opens {cs : List Char} (h : Opens cs) : after? .start cs = some .start := by
  rcases h with rfl | ⟨done, hdone, rfl⟩
  · rfl
  · obtain ⟨last, hlast, hends⟩ := after?_of_shaped hdone
    simp [after?_append, hlast, (next?_of_ends hends).1]

theorem after?_of_stands {place : Place} {cs : List Char} (h : place.Stands cs) :
    after? .start cs = some place := by
  cases place with
  | start => exact after?_of_opens h
  | name =>
    obtain ⟨front, letters, hfront, nonempty, hdot, hbracket, rfl⟩ := h
    simp [after?_append, after?_of_opens hfront, after?_name nonempty hdot hbracket]
  | bracket =>
    obtain ⟨done, hdone, rfl⟩ := h
    obtain ⟨last, hlast, hends⟩ := after?_of_shaped hdone
    simp [after?_append, hlast, (next?_of_ends hends).2]
  | digits =>
    obtain ⟨done, digits, hdone, run, rfl⟩ := h
    obtain ⟨last, hlast, hends⟩ := after?_of_shaped hdone
    rw [after?_append, hlast]
    exact after?_position hends run
  | closed =>
    obtain ⟨done, digits, hdone, run, rfl⟩ := h
    obtain ⟨last, hlast, hends⟩ := after?_of_shaped hdone
    rw [List.append_assoc, after?_append, hlast, Option.bind_some, after?_append,
      after?_position hends run]
    exact next?_close

/-- A text that breaks off where it may end is a text of the grammar. -/
theorem Stands.shaped {place : Place} {cs : List Char} (h : place.Stands cs)
    (hends : place.ends = true) : Shaped cs := by
  cases place with
  | name =>
    obtain ⟨front, letters, hfront, nonempty, hdot, hbracket, rfl⟩ := h
    exact hfront.named nonempty hdot hbracket
  | closed =>
    obtain ⟨done, digits, hdone, run, rfl⟩ := h
    exact hdone.bracketed run
  | _ => contradiction

/-- One more character leads from the texts of a place to the texts of the next. -/
theorem Stands.next {place next : Place} {cs : List Char} {c : Char} (h : place.Stands cs)
    (hnext : place.next? c = some next) : next.Stands (cs ++ [c]) := by
  -- Behind an end, a dot or a bracket starts anew from the whole text.
  have hdot (hends : place.ends = true) : start.Stands (cs ++ ['.']) :=
    .inr ⟨cs, h.shaped hends, rfl⟩
  have hbracket (hends : place.ends = true) : bracket.Stands (cs ++ ['[']) :=
    ⟨cs, h.shaped hends, rfl⟩
  cases place with
  | start =>
    simp only [next?, Option.ite_none_left_eq_some, Option.some.injEq, not_or] at hnext
    obtain ⟨⟨hd, hb⟩, rfl⟩ := hnext
    exact ⟨cs, [c], h, by simp, by simpa using Ne.symm hd, by simpa using Ne.symm hb, rfl⟩
  | name =>
    simp only [next?, Option.some.injEq] at hnext
    split at hnext
    · next hc => subst hc hnext; exact hdot rfl
    · split at hnext
      · next hc => subst hc hnext; exact hbracket rfl
      · next hd hb =>
        subst hnext
        obtain ⟨front, letters, hfront, nonempty, hld, hlb, rfl⟩ := h
        exact ⟨front, letters ++ [c], hfront, by simp, by simp [hld, Ne.symm hd],
          by simp [hlb, Ne.symm hb], by simp⟩
  | bracket =>
    simp only [next?, Option.ite_none_right_eq_some, Option.some.injEq] at hnext
    obtain ⟨hc, rfl⟩ := hnext
    obtain ⟨done, hdone, rfl⟩ := h
    exact ⟨done, [c], hdone, ⟨by simp, by simpa using hc⟩, by simp⟩
  | digits =>
    obtain ⟨done, digits, hdone, ⟨nonempty, decimal⟩, rfl⟩ := h
    simp only [next?] at hnext
    split at hnext
    · next hc =>
      cases hnext
      refine ⟨done, digits ++ [c], hdone, ⟨by simp, ?_⟩, by simp⟩
      rw [List.forall_mem_append, List.forall_mem_singleton]
      exact ⟨decimal, hc⟩
    · simp only [Option.ite_none_right_eq_some, Option.some.injEq] at hnext
      obtain ⟨rfl, rfl⟩ := hnext
      exact ⟨done, digits, hdone, ⟨nonempty, decimal⟩, rfl⟩
  | closed =>
    simp only [next?] at hnext
    split at hnext
    · next hc => subst hc; cases hnext; exact hbracket rfl
    · simp only [Option.ite_none_right_eq_some, Option.some.injEq] at hnext
      obtain ⟨rfl, rfl⟩ := hnext
      exact hdot rfl

/-- The machine stands at a place exactly behind the texts that break off there. -/
theorem after?_eq_some_iff {place : Place} {cs : List Char} :
    after? .start cs = some place ↔ place.Stands cs := by
  refine ⟨?_, after?_of_stands⟩
  induction cs using List.reverseRecOn generalizing place with
  | nil =>
    intro h
    obtain rfl := Option.some.inj h
    exact .inl rfl
  | append_singleton cs c ih =>
    intro h
    rw [after?_concat] at h
    obtain ⟨before, hbefore, hnext⟩ := Option.bind_eq_some_iff.1 h
    exact (ih hbefore).next hnext

/-- No text breaks off at two places. -/
theorem Stands.unique {place other : Place} {cs : List Char} (h : place.Stands cs)
    (ho : other.Stands cs) : place = other :=
  Option.some.inj ((after?_of_stands h).symm.trans (after?_of_stands ho))

/-- A shortest way to an end. -/
def completion : Place → List Char
  | .start => ['a']
  | .name | .closed => []
  | .bracket => ['0', ']']
  | .digits => [']']

theorem after?_completion (place : Place) :
    ∃ last, place.after? place.completion = some last ∧ last.ends = true := by
  cases place with
  | start => exact ⟨.name, by decide, rfl⟩
  | name => exact ⟨.name, rfl, rfl⟩
  | bracket => exact ⟨.closed, by decide, rfl⟩
  | digits => exact ⟨.closed, by decide, rfl⟩
  | closed => exact ⟨.closed, rfl, rfl⟩

end Place

/-- A text is one of the grammar exactly where the machine takes it to an end. -/
theorem shaped_iff {cs : List Char} :
    Shaped cs ↔ ∃ last, Place.after? .start cs = some last ∧ last.ends = true := by
  refine ⟨Place.after?_of_shaped, ?_⟩
  rintro ⟨last, hlast, hends⟩
  exact (Place.after?_eq_some_iff.1 hlast).shaped hends

/-- The machine refuses a character exactly where no text of the grammar goes on with it. -/
theorem viable_iff {cs : List Char} : Viable cs ↔ ∃ place : Place, place.Stands cs := by
  constructor
  · rintro ⟨rest, h⟩
    obtain ⟨last, hlast, -⟩ := shaped_iff.1 h
    rw [Place.after?_append] at hlast
    obtain ⟨place, hplace, -⟩ := Option.bind_eq_some_iff.1 hlast
    exact ⟨place, Place.after?_eq_some_iff.1 hplace⟩
  · rintro ⟨place, h⟩
    obtain ⟨last, hlast, hends⟩ := place.after?_completion
    refine ⟨place.completion, shaped_iff.2 ⟨last, ?_, hends⟩⟩
    rw [Place.after?_append, Place.after?_of_stands h]
    exact hlast

end Path

end TreePath
