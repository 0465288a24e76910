import TreePath.Proofs.Toml.Quoted
import TreePath.Proofs.Toml.Scalar
import TreePath.Proofs.Toml.Table

/-!
Texts of one key a line. Where every line gives a bare key a value and no key is repeated, the table of
the text has the values of the lines, in their order.
-/

namespace TreePath

namespace Toml

/-- The text is read as the value where its line ends. -/
structure Spells (text : List Char) (value : Value) : Prop where
  unspaced : text.head?.any isSpace = false
  reads : ∀ rest, readValue maxDepth (text ++ '\n' :: rest) = some (value, '\n' :: rest)

theorem spells_integer (i : Int64) : Spells (toString i.toInt).toList (.integer i) where
  unspaced := by
    obtain ⟨c, digits, hspelled, hc, -⟩ := exists_toString_eq_cons i.toInt
    have hspace : isSpace c = false := by
      rw [isSpace, Bool.or_eq_false_iff, decide_eq_false_iff_not, decide_eq_false_iff_not]
      constructor
      · rintro rfl
        contradiction
      · rintro rfl
        contradiction
    rw [hspelled]
    exact hspace
  reads := readValue_toString i maxDepth

theorem spells_boolean (b : Bool) :
    Spells (if b then "true" else "false").toList (.boolean b) where
  unspaced := by cases b <;> rfl
  reads := readValue_toString_boolean b maxDepth

theorem spells_quoted (s : String) : Spells (quotedChars s.toList) (.string s) where
  unspaced := by
    unfold quotedChars
    split <;> rfl
  reads rest := by
    have hrest : Unquoted ('\n' :: rest) := by
      intro mark
      cases mark <;> simp [Mark.char]
    rw [readValue_quotedChars hrest, String.ofList_toList]

structure Line where
  key : String
  text : List Char
  value : Value
  nonempty : key ≠ ""
  bare : key.toList.all isBareChar
  spells : Spells text value

section BareChar

variable {c : Char} (hc : isBareChar c)

include hc

theorem ne_of_isBareChar {d : Char} (hd : isBareChar d = false) : c ≠ d := by
  rintro rfl
  rw [hc] at hd
  contradiction

theorem isSpace_of_isBareChar : isSpace c = false := by
  have hblank : c ≠ ' ' := ne_of_isBareChar hc rfl
  have htab : c ≠ '\t' := ne_of_isBareChar hc rfl
  simp [isSpace, hblank, htab]

theorem skipSpaces_bare (rest : List Char) : skipSpaces (c :: rest) = c :: rest := by
  simp [skipSpaces, isSpace_of_isBareChar hc]

theorem skipBlank_bare (rest : List Char) : skipBlank false (c :: rest) = some (c :: rest) := by
  have hreturn : c ≠ '\r' := ne_of_isBareChar hc rfl
  have hfeed : c ≠ '\n' := ne_of_isBareChar hc rfl
  have hcomment : c ≠ '#' := ne_of_isBareChar hc rfl
  rw [skipBlank]
  · simp [hfeed, hcomment, isSpace_of_isBareChar hc]
  · simp [hreturn]

theorem dropMark_bare (rest : List Char) : dropMark (c :: rest) = c :: rest := by
  have hmark : c ≠ '\uFEFF' := ne_of_isBareChar hc rfl
  simp [dropMark, hmark]

end BareChar

namespace Line

def chars (l : Line) : List Char := l.key.toList ++ ' ' :: '=' :: ' ' :: (l.text ++ ['\n'])

def entry (l : Line) : String × Value := (l.key, l.value)

def statement (l : Line) : Statement := .entry [l.key] l.value

variable (l : Line)

theorem exists_key_eq_cons : ∃ c rest, l.key.toList = c :: rest ∧ isBareChar c := by
  have hbare := List.all_eq_true.1 l.bare
  cases hkey : l.key.toList with
  | nil => exact absurd (String.toList_eq_nil_iff.1 hkey) l.nonempty
  | cons c rest => exact ⟨c, rest, rfl, hbare c (hkey ▸ List.mem_cons_self)⟩

theorem exists_chars_eq_cons : ∃ c rest, l.chars = c :: rest ∧ isBareChar c := by
  obtain ⟨c, rest, hkey, hc⟩ := l.exists_key_eq_cons
  rw [chars, hkey]
  exact ⟨c, _, rfl, hc⟩

theorem readKeyPart_key (rest : List Char) :
    readKeyPart (l.key.toList ++ ' ' :: rest) = some (l.key, ' ' :: rest) := by
  obtain ⟨c, more, hkey, hc⟩ := l.exists_key_eq_cons
  have hspan : (l.key.toList ++ ' ' :: rest).span isBareChar = (l.key.toList, ' ' :: rest) :=
    span_append (List.all_eq_true.1 l.bare) rfl
  rw [hkey, List.cons_append] at hspan ⊢
  unfold readKeyPart
  split
  · next h => exact absurd (List.cons.inj h).1 (ne_of_isBareChar hc rfl)
  · next h => exact absurd (List.cons.inj h).1 (ne_of_isBareChar hc rfl)
  · rw [hspan, ← hkey]
    simp [l.nonempty]

theorem readKey_key {parts : Nat} (hparts : parts ≠ 0) (rest : List Char) :
    readKey parts (l.key.toList ++ ' ' :: '=' :: rest) = some ([l.key], '=' :: rest) := by
  obtain ⟨parts, rfl⟩ := Nat.exists_eq_succ_of_ne_zero hparts
  obtain ⟨c, more, hkey, hc⟩ := l.exists_key_eq_cons
  have hskip : skipSpaces (l.key.toList ++ ' ' :: '=' :: rest) =
      l.key.toList ++ ' ' :: '=' :: rest := by
    rw [hkey]
    exact skipSpaces_bare hc _
  rw [readKey, hskip, l.readKeyPart_key]
  rfl

theorem readValue_text (rest : List Char) :
    readValue maxDepth (skipSpaces (' ' :: (l.text ++ '\n' :: rest))) =
      some (l.value, '\n' :: rest) := by
  have hskip : skipSpaces (' ' :: (l.text ++ '\n' :: rest)) = l.text ++ '\n' :: rest := by
    have hspace := l.spells.unspaced
    cases htext : l.text with
    | nil => rfl
    | cons c text =>
      rw [htext] at hspace
      have hc : isSpace c = false := hspace
      have hblank : isSpace ' ' = true := rfl
      simp [skipSpaces, hblank, hc]
  rw [hskip]
  exact l.spells.reads rest

theorem readEntry_chars (rest : List Char) :
    readEntry (readValue maxDepth) (l.chars ++ rest) =
      some (([l.key], l.value), '\n' :: rest) := by
  have hchars : l.chars ++ rest = l.key.toList ++ ' ' :: '=' :: ' ' :: (l.text ++ '\n' :: rest) := by
    simp [chars]
  rw [hchars, readEntry, l.readKey_key (by decide)]
  exact congrArg (Option.map _) (l.readValue_text rest)

/-- The statement of a line is read up to the end of the line. -/
theorem readStatement_chars (rest : List Char) :
    readStatement (l.chars ++ rest) = some (l.statement, '\n' :: rest) := by
  have hentry := l.readEntry_chars rest
  obtain ⟨c, more, hcons, hc⟩ := l.exists_chars_eq_cons
  have hbracket : c ≠ '[' := ne_of_isBareChar hc rfl
  rw [hcons, List.cons_append] at hentry ⊢
  unfold readStatement
  split
  · next h => exact absurd (List.cons.inj h).1 hbracket
  · next h => exact absurd (List.cons.inj h).1 hbracket
  · rw [hentry]
    rfl

/-- A line is one statement more. -/
theorem readStatements_chars (fuel : Nat) (read : List Statement) (rest : List Char) :
    readStatements (fuel + 1) read (l.chars ++ rest) =
      readStatements fuel (l.statement :: read) rest := by
  have hstatement := l.readStatement_chars rest
  obtain ⟨c, more, hcons, hc⟩ := l.exists_chars_eq_cons
  rw [hcons, List.cons_append] at hstatement ⊢
  rw [readStatements, skipBlank_bare hc]
  dsimp only
  rw [hstatement]
  rfl

end Line

/-- Lines are read to their end, each as a statement. -/
theorem readStatements_lines {lines : List Line} {fuel : Nat} (hfuel : lines.length < fuel)
    (read : List Statement) :
    readStatements fuel read (lines.flatMap Line.chars) =
      some (read.reverse ++ lines.map Line.statement) := by
  induction lines generalizing fuel read with
  | nil =>
    obtain ⟨fuel, rfl⟩ := Nat.exists_eq_succ_of_ne_zero (Nat.ne_of_gt hfuel)
    simp [readStatements, skipBlank]
  | cons l lines ih =>
    obtain ⟨fuel, rfl⟩ := Nat.exists_eq_succ_of_ne_zero (Nat.ne_of_gt (Nat.zero_lt_of_lt hfuel))
    rw [List.flatMap_cons, l.readStatements_chars, ih (Nat.lt_of_succ_lt_succ hfuel)]
    simp

theorem length_le_length_flatMap (lines : List Line) :
    lines.length ≤ (lines.flatMap Line.chars).length := by
  induction lines with
  | nil => exact Nat.le_refl 0
  | cons l lines ih =>
    obtain ⟨c, rest, hcons, -⟩ := l.exists_chars_eq_cons
    rw [List.flatMap_cons, hcons, List.length_append, List.length_cons, List.length_cons]
    omega

theorem statements?_lines (lines : List Line) :
    statements? (String.ofList (lines.flatMap Line.chars)) = some (lines.map Line.statement) := by
  have hmark : dropMark (lines.flatMap Line.chars) = lines.flatMap Line.chars := by
    cases lines with
    | nil => rfl
    | cons l lines =>
      obtain ⟨c, rest, hcons, hc⟩ := l.exists_chars_eq_cons
      rw [List.flatMap_cons, hcons]
      exact dropMark_bare hc _
  rw [statements?, String.toList_ofList, hmark]
  exact readStatements_lines (Nat.lt_succ_of_le (length_le_length_flatMap lines)) []

/-- A line adds its value to the entries, where its key is new. -/
theorem step_statement {items : Items} {l : Line} (hnew : l.key ∉ items.map Prod.fst) :
    Draft.step ⟨items, []⟩ l.statement = some ⟨items ++ [(l.key, .value l.value)], []⟩ := by
  have hlookup : items.lookup l.key = none := Keyed.lookup_eq_none_iff.2 hnew
  simp [Draft.step, Line.statement, Items.within, Items.put, hlookup]

def itemsOfLines (lines : List Line) : Items := lines.map fun l => (l.key, .value l.value)

theorem foldlM_step_lines {lines : List Line} {items : Items}
    (keys : (items.map Prod.fst ++ lines.map Line.key).Nodup) :
    (lines.map Line.statement).foldlM Draft.step ⟨items, []⟩ =
      some ⟨items ++ itemsOfLines lines, []⟩ := by
  induction lines generalizing items with
  | nil => simp [itemsOfLines]
  | cons l lines ih =>
    rw [List.map_cons] at keys
    have hnew : l.key ∉ items.map Prod.fst := fun h =>
      (List.nodup_append.1 keys).2.2 _ h _ List.mem_cons_self rfl
    rw [List.map_cons, List.foldlM_cons, step_statement hnew]
    refine (ih ?_).trans ?_
    · simpa using keys
    · simp [itemsOfLines]

theorem tableOfItems_itemsOfLines (lines : List Line) :
    tableOfItems (itemsOfLines lines) = lines.map Line.entry := by
  induction lines with
  | nil => rfl
  | cons l lines ih =>
    rw [List.map_cons, ← ih]
    rfl

/-- The table of lines with keys of their own has the values of the lines. -/
theorem read?_lines {lines : List Line} (keys : (lines.map Line.key).Nodup) :
    read? (String.ofList (lines.flatMap Line.chars)) = some (lines.map Line.entry) := by
  have hdraft : (lines.map Line.statement).foldlM Draft.step Draft.initial =
      some ⟨itemsOfLines lines, []⟩ := foldlM_step_lines keys
  rw [read?, statements?_lines, Option.bind_some, Table.ofStatements?, hdraft]
  exact congrArg some (tableOfItems_itemsOfLines lines)

end Toml

end TreePath
