import TreePath.Proofs.Number.Numeral
import TreePath.Toml.Quoted
import TreePath.Toml.Reader

/-!
Quoted strings. However a string is quoted, it is read back as itself, and what follows the closing
quotes is left. The readers for one line and for several lines treat escapes alike, so what is said of
escapes is said once, of any reader that takes them apart in these steps.
-/

namespace TreePath

namespace Toml

/-- The rest of a text, read in one of the modes of a reader behind the characters read so far. -/
abbrev ModeReader (Mode : Type) := List Char → Mode → List Char → Option (List Char × List Char)

/-- A reader of text between double quotes, with a mode for plain text, one behind a backslash, and one
for each number of missing hexadecimal digits. -/
structure Unescapes {Mode : Type} (reader : ModeReader Mode) (plain escape : Mode)
    (code : Nat → Nat → Mode) : Prop where
  char : ∀ {c}, isLineChar c = true → c ≠ '"' → c ≠ '\\' → ∀ read rest,
    reader read plain (c :: rest) = reader (c :: read) plain rest
  backslash : ∀ read rest, reader read plain ('\\' :: rest) = reader read escape rest
  letter : ∀ {c d}, unescape? c = some d → ∀ read rest,
    reader read escape (c :: rest) = reader (d :: read) plain rest
  unit : ∀ read rest, reader read escape ('u' :: rest) = reader read (code 4 0) rest
  digit : ∀ {missing value next c}, nextDigit? missing value c = some (.inr next) → ∀ read rest,
    reader read (code missing value) (c :: rest) = reader read (code (missing - 1) next) rest
  last : ∀ {missing value d c}, nextDigit? missing value c = some (.inl d) → ∀ read rest,
    reader read (code missing value) (c :: rest) = reader (d :: read) plain rest

/-- A letter with a meaning of its own is none of those that an escape may begin with otherwise. -/
theorem ne_of_unescape? {c d : Char} (h : unescape? c = some d) :
    c ≠ 'u' ∧ c ≠ 'U' ∧ isSpace c = false ∧ c ≠ '\n' ∧ c ≠ '\r' := by
  have hne (e : Char) (he : unescape? e = none) : c ≠ e := by
    rintro rfl
    rw [he] at h
    contradiction
  have hspace := hne ' ' rfl
  have htab := hne '\t' rfl
  exact ⟨hne _ rfl, hne _ rfl, by simp [isSpace, hspace, htab], hne _ rfl, hne _ rfl⟩

theorem unescapes_readLine : Unescapes (readLine .double) .plain .escape .code where
  char := by
    intro c hc hquote hbackslash read rest
    simp [readLine, Mark.char, hc, hquote, hbackslash]
  backslash read rest := by simp [readLine, Mark.char, Mark.escapes]
  letter := by
    intro c d hd read rest
    obtain ⟨hunit, hlong, -⟩ := ne_of_unescape? hd
    simp [readLine, hunit, hlong, hd]
  unit read rest := by simp [readLine]
  digit := by
    intro missing value next c hnext read rest
    simp [readLine, hnext]
  last := by
    intro missing value d c hd read rest
    simp [readLine, hd]

theorem unescapes_readBlock : Unescapes (readBlock .double) .plain .escape .code where
  char := by
    intro c hc hquote hbackslash read rest
    have hfeed : c ≠ '\n' := by
      rintro rfl
      contradiction
    have hreturn : c ≠ '\r' := by
      rintro rfl
      contradiction
    simp [readBlock, blockStep, plainStep, Mark.char, hc, hquote, hbackslash, hfeed, hreturn]
  backslash read rest := by simp [readBlock, blockStep, plainStep, Mark.char, Mark.escapes]
  letter := by
    intro c d hd read rest
    obtain ⟨hunit, hlong, hspace, hfeed, hreturn⟩ := ne_of_unescape? hd
    simp [readBlock, blockStep, hunit, hlong, hspace, hfeed, hreturn, hd]
  unit read rest := by simp [readBlock, blockStep]
  digit := by
    intro missing value next c hnext read rest
    simp [readBlock, blockStep, hnext]
  last := by
    intro missing value d c hd read rest
    simp [readBlock, blockStep, hd]

theorem hexDigit?_toUpper {n : Nat} (hn : n < 16) :
    hexDigit? (Nat.digitChar n).toUpper = some n :=
  (by decide : ∀ n < 16, hexDigit? (Nat.digitChar n).toUpper = some n) n hn

/-- A digit in upper case is added behind those that were taken. -/
theorem nextDigit?_toUpper {digit missing value : Nat} (hdigit : digit < 16) :
    nextDigit? (missing + 2) value (Nat.digitChar digit).toUpper =
      some (.inr (16 * value + digit)) := by
  rw [nextDigit?, hexDigit?_toUpper hdigit, Option.bind_some]
  exact if_neg (by omega)

/-- The last digit completes a character. -/
theorem nextDigit?_toUpper_last {digit value : Nat} {c : Char} (hdigit : digit < 16)
    (hvalue : 16 * value + digit = c.toNat) :
    nextDigit? 1 value (Nat.digitChar digit).toUpper = some (.inl c) := by
  rw [nextDigit?, hexDigit?_toUpper hdigit, Option.bind_some, hvalue]
  exact (if_pos (Nat.le_refl 1)).trans (by rw [scalar?_toNat]; rfl)

/-- A character that is no control character stands for itself on a line. -/
theorem isLineChar_of_not_isControl {c : Char} (hcontrol : isControl c = false) (hfeed : c ≠ '\n') :
    isLineChar c = true := by
  by_cases htab : c = '\t'
  · simp [isLineChar, htab]
  · simp [isControl, htab, hfeed] at hcontrol
    simp [isLineChar, htab, hcontrol]

theorem ne_of_not_isControl {c : Char} (hcontrol : isControl c = false) : c ≠ '\r' := by
  rintro rfl
  contradiction

/-- Control characters have short codes. -/
theorem toNat_lt_of_isControl {c : Char} (hcontrol : isControl c = true) : c.toNat < 0x10000 := by
  simp only [isControl, Bool.or_eq_true, Bool.and_eq_true, decide_eq_true_eq] at hcontrol
  omega

section Escapes

variable {Mode : Type} {reader : ModeReader Mode} {plain escape : Mode} {code : Nat → Nat → Mode}

/-- A backslash and a letter are read as what the letter means. -/
theorem Unescapes.escaped (h : Unescapes reader plain escape code) {c d : Char}
    (hd : unescape? c = some d) (read rest : List Char) :
    reader read plain ('\\' :: c :: rest) = reader (d :: read) plain rest :=
  (h.backslash read _).trans (h.letter hd read rest)

/-- Four digits are read as the character that they count. -/
theorem Unescapes.digits (h : Unescapes reader plain escape code) {c : Char}
    (hc : c.toNat < 0x10000) (read rest : List Char) :
    reader read (code 4 0) ((hexChars 4 c.toNat).map Char.toUpper ++ rest) =
      reader (c :: read) plain rest := by
  have hdigit : ∀ n, n % 16 < 16 := fun n => Nat.mod_lt n (by decide)
  simp only [hexChars, List.nil_append, List.cons_append, List.map_cons, List.map_nil]
  rw [h.digit (nextDigit?_toUpper (hdigit _)), h.digit (nextDigit?_toUpper (hdigit _)),
    h.digit (nextDigit?_toUpper (hdigit _))]
  exact h.last (nextDigit?_toUpper_last (hdigit _) (by omega)) read rest

/-- A character between double quotes is read as itself. -/
theorem Unescapes.escapeChar (h : Unescapes reader plain escape code) {block : Bool}
    (hfeed : block = true → ∀ read rest,
      reader read plain ('\n' :: rest) = reader ('\n' :: read) plain rest)
    {c : Char} (hquote : c ≠ '"') (read rest : List Char) :
    reader read plain (escapeChar block c ++ rest) = reader (c :: read) plain rest := by
  unfold Toml.escapeChar
  split
  · exact h.escaped rfl _ _
  · exact h.escaped rfl _ _
  · cases block with
    | true => exact hfeed rfl read rest
    | false => exact h.escaped rfl _ _
  · exact h.escaped rfl _ _
  · exact h.escaped rfl _ _
  · exact h.escaped rfl _ _
  · next hnewline _ _ hbackslash =>
    split
    · next hcontrol =>
      have hdigits := h.digits (toNat_lt_of_isControl hcontrol) read rest
      exact (h.backslash _ _).trans ((h.unit _ _).trans hdigits)
    · next hcontrol =>
      have hline := isLineChar_of_not_isControl (Bool.eq_false_iff.2 hcontrol) hnewline
      exact h.char hline hquote hbackslash _ _

end Escapes

/-- A character between double quotes starts with a backslash, or it stands for itself. -/
theorem head?_escapeChar_ne {c d : Char} (hd : d ≠ '\\') (hc : c = d → isControl c = true)
    (block : Bool) (rest : List Char) : (escapeChar block c ++ rest).head? ≠ some d := by
  have hbackslash : some '\\' ≠ some d := fun h => hd (Option.some.inj h).symm
  have hself (hcontrol : isControl c = false) : some c ≠ some d := by
    intro h
    rw [hc (Option.some.inj h)] at hcontrol
    contradiction
  unfold escapeChar
  split
  · exact hbackslash
  · exact hbackslash
  · cases block with
    | true => exact hself rfl
    | false => exact hbackslash
  · exact hbackslash
  · exact hbackslash
  · exact hbackslash
  · split
    · exact hbackslash
    · next hcontrol => exact hself (Bool.eq_false_iff.2 hcontrol)

/-! Strings on one line. -/

/-- Escapes are read up to the closing quote. -/
theorem readLine_escaped (cs read rest : List Char) :
    readLine .double read .plain (escaped false 0 0 cs ++ '"' :: rest) =
      some (read.reverse ++ cs, rest) := by
  induction cs generalizing read with
  | nil => simp [escaped, readLine, Mark.char]
  | cons c cs ih =>
    have hread := ih (c :: read)
    rw [List.reverse_cons, List.append_assoc, List.singleton_append] at hread
    rw [escaped]
    by_cases hquote : c = '"'
    · subst hquote
      rw [if_pos rfl, if_neg (Nat.not_lt_zero 0), List.cons_append, List.cons_append,
        unescapes_readLine.escaped rfl, hread]
    · rw [if_neg hquote, List.append_assoc,
        unescapes_readLine.escapeChar (fun hblock => by contradiction) hquote, hread]

/-- What stands between single quotes is read as it is. -/
theorem readLine_verbatim {cs : List Char} (plain : ∀ c ∈ cs, isControl c = false)
    (oneLine : '\n' ∉ cs) (unquoted : '\'' ∉ cs) (read rest : List Char) :
    readLine .single read .plain (cs ++ '\'' :: rest) = some (read.reverse ++ cs, rest) := by
  induction cs generalizing read with
  | nil => simp [readLine, Mark.char]
  | cons c cs ih =>
    obtain ⟨hc, plain⟩ := List.forall_mem_cons.1 plain
    obtain ⟨hfeed, oneLine⟩ := List.ne_and_not_mem_of_not_mem_cons oneLine
    obtain ⟨hquote, unquoted⟩ := List.ne_and_not_mem_of_not_mem_cons unquoted
    have hline := isLineChar_of_not_isControl hc hfeed.symm
    have hread := ih plain oneLine unquoted (c :: read)
    rw [List.reverse_cons, List.append_assoc, List.singleton_append] at hread
    have hmark : c ≠ Mark.single.char := hquote.symm
    rw [List.cons_append, readLine, if_neg hmark, hline, ← hread]
    simp [Mark.escapes]

/-! Strings over several lines. A run of marks is a part of the string as long as no three marks
have come. -/

theorem replicate_append_cons (n : Nat) (c : Char) (cs : List Char) :
    List.replicate n c ++ c :: cs = List.replicate (n + 1) c ++ cs := by
  rw [List.replicate_succ', List.append_assoc, List.singleton_append]

section Block

variable (mark : Mark) (read : List Char) {marks : Nat} {cs : List Char}

theorem readBlock_plain (cs : List Char) :
    readBlock mark read .plain cs = readBlock mark read (.marks 0) cs := by
  cases cs with
  | nil => rfl
  | cons c rest =>
    by_cases hc : c = mark.char
    · simp [readBlock, blockStep, plainStep, hc]
    · simp [readBlock, blockStep, hc]

theorem readBlock_mark (hmarks : marks < 5) (rest : List Char) :
    readBlock mark read (.marks marks) (mark.char :: rest) =
      readBlock mark read (.marks (marks + 1)) rest := by
  rw [readBlock, if_pos rfl, if_pos hmarks]

/-- A run of at most two marks belongs to the text. -/
theorem readBlock_marks (hmarks : marks ≤ 2) (hhead : cs.head? ≠ some mark.char) :
    readBlock mark read (.marks marks) cs =
      readBlock mark (List.replicate marks mark.char ++ read) .plain cs := by
  have hfew : ¬ 3 ≤ marks := by omega
  cases cs with
  | nil => simp [readBlock, hfew]
  | cons c rest =>
    have hc : c ≠ mark.char := by simpa using hhead
    simp [readBlock, blockStep, hc, hfew]

/-- Three marks close the string, behind at most two that belong to the text. -/
theorem readBlock_close (hmarks : marks ≤ 2) (hhead : cs.head? ≠ some mark.char) :
    readBlock mark read (.marks marks) (List.replicate 3 mark.char ++ cs) =
      some (read.reverse ++ List.replicate marks mark.char, cs) := by
  have hthree : List.replicate 3 mark.char ++ cs = mark.char :: mark.char :: mark.char :: cs := rfl
  rw [hthree, readBlock_mark _ _ (by omega), readBlock_mark _ _ (by omega),
    readBlock_mark _ _ (by omega)]
  cases cs with
  | nil => simp [readBlock]
  | cons c rest =>
    have hc : c ≠ mark.char := by simpa using hhead
    simp [readBlock, hc]

end Block

theorem readBlock_newline (mark : Mark) (read rest : List Char) :
    readBlock mark read .plain ('\n' :: rest) = readBlock mark ('\n' :: read) .plain rest := by
  cases mark <;> simp [readBlock, blockStep, plainStep, Mark.char]

/-- Escapes and marks are read up to the three closing quotes. -/
theorem readBlock_escaped {rest : List Char} (hrest : rest.head? ≠ some '"') {marks : Nat}
    (hmarks : marks ≤ 2) (cs read : List Char) :
    readBlock .double read (.marks marks)
        (escaped true 2 marks cs ++ (List.replicate 3 '"' ++ rest)) =
      some (read.reverse ++ (List.replicate marks '"' ++ cs), rest) := by
  induction cs generalizing marks read with
  | nil =>
    rw [List.append_nil]
    exact readBlock_close .double read hmarks hrest
  | cons c cs ih =>
    have hread := ih (Nat.zero_le 2) (c :: (List.replicate marks '"' ++ read))
    rw [List.reverse_cons, List.reverse_append, List.reverse_replicate] at hread
    simp only [List.replicate_zero, List.nil_append, List.append_assoc, List.cons_append] at hread
    rw [escaped]
    by_cases hquote : c = '"'
    · subst hquote
      rw [if_pos rfl]
      split
      · next hfew =>
        rw [replicate_append_cons]
        exact (readBlock_mark .double read (by omega) _).trans (ih (Nat.succ_le_of_lt hfew) read)
      · next hmany =>
        -- a third mark in a row is escaped, and with the backslash the run is over
        rw [List.cons_append, List.cons_append, readBlock_marks _ _ hmarks (by simp [Mark.char]),
          unescapes_readBlock.escaped rfl, readBlock_plain]
        exact hread
    · -- whatever the character is written as does not begin with a mark, which ends the run as well
      rw [if_neg hquote, List.append_assoc,
        readBlock_marks _ _ hmarks (head?_escapeChar_ne (by decide) (absurd · hquote) _ _),
        unescapes_readBlock.escapeChar (fun _ => readBlock_newline .double) hquote,
        readBlock_plain]
      exact hread

/-- Between single quotes a character that is neither a mark nor a control character stands for
itself. -/
theorem readBlock_char {c : Char} (hc : isControl c = false) (hquote : c ≠ '\'')
    (read rest : List Char) :
    readBlock .single read .plain (c :: rest) = readBlock .single (c :: read) .plain rest := by
  by_cases hfeed : c = '\n'
  · rw [hfeed, readBlock_newline]
  · have hline := isLineChar_of_not_isControl hc hfeed
    have hreturn := ne_of_not_isControl hc
    simp [readBlock, blockStep, plainStep, Mark.char, Mark.escapes, hquote, hfeed, hreturn, hline]

theorem le_longestRun (c : Char) (cs : List Char) (run : Nat) : run ≤ longestRun c cs run := by
  induction cs generalizing run with
  | nil => exact Nat.le_refl run
  | cons d cs ih =>
    rw [longestRun]
    split
    · exact Nat.le_trans (Nat.le_succ run) (ih _)
    · exact Nat.le_max_left run _

/-- A text that never has three marks in a row is read as it is between three single quotes. -/
theorem readBlock_verbatim {rest : List Char} (hrest : rest.head? ≠ some '\'') {cs : List Char}
    (plain : ∀ c ∈ cs, isControl c = false) {marks : Nat} (runs : longestRun '\'' cs marks ≤ 2)
    (read : List Char) :
    readBlock .single read (.marks marks) (cs ++ (List.replicate 3 '\'' ++ rest)) =
      some (read.reverse ++ (List.replicate marks '\'' ++ cs), rest) := by
  have hmarks := Nat.le_trans (le_longestRun _ _ _) runs
  induction cs generalizing marks read with
  | nil =>
    rw [List.append_nil]
    exact readBlock_close .single read hmarks hrest
  | cons c cs ih =>
    obtain ⟨hc, hplain⟩ := List.forall_mem_cons.1 plain
    rw [longestRun] at runs
    by_cases hquote : c = '\''
    · subst hquote
      rw [if_pos rfl] at runs
      have hmore := ih hplain runs read (Nat.le_trans (le_longestRun _ _ _) runs)
      rw [replicate_append_cons]
      exact (readBlock_mark .single read (by omega) _).trans hmore
    · rw [if_neg hquote] at runs
      have hread := ih hplain (Nat.le_trans (Nat.le_max_right _ _) runs)
        (c :: (List.replicate marks '\'' ++ read)) (Nat.zero_le 2)
      rw [List.reverse_cons, List.reverse_append, List.reverse_replicate] at hread
      simp only [List.replicate_zero, List.nil_append, List.append_assoc, List.cons_append] at hread
      rw [List.cons_append, readBlock_marks _ _ hmarks (by simpa [Mark.char] using hquote),
        readBlock_char hc hquote, readBlock_plain]
      exact hread

/-! All quotings. -/

theorem dropFirstBreak_eq_self {cs : List Char} (hfeed : cs.head? ≠ some '\n')
    (hreturn : cs.head? ≠ some '\r') : dropFirstBreak cs = cs := by
  unfold dropFirstBreak
  split
  · simp at hfeed
  · simp at hreturn
  · rfl

/-- Without a break the text is taken from the first character on, and with one behind the break
that is written. -/
theorem dropFirstBreak_firstBreak {cs body : List Char}
    (hbody : '\n' ∉ cs → body.head? ≠ some '\n' ∧ body.head? ≠ some '\r') :
    dropFirstBreak (firstBreak cs ++ body) = body := by
  rw [firstBreak]
  split
  · rfl
  · next hbreaks =>
    obtain ⟨hfeed, hreturn⟩ := hbody (by simpa using hbreaks)
    exact dropFirstBreak_eq_self hfeed hreturn

theorem readQuoted_block (mark : Mark) (rest : List Char) :
    readQuoted mark (mark.char :: mark.char :: rest) =
      readBlock mark [] (.marks 0) (dropFirstBreak rest) := by
  rw [← readBlock_plain]
  exact if_pos ⟨rfl, rfl⟩

/-- Unless two marks come first, there is one line. -/
theorem readQuoted_line {mark : Mark} {cs : List Char}
    (hmarks : cs.take 2 ≠ List.replicate 2 mark.char) :
    readQuoted mark cs = readLine mark [] .plain cs := by
  match cs with
  | [] | [_] => rfl
  | a :: b :: rest =>
    refine if_neg ?_
    rintro ⟨rfl, rfl⟩
    exact hmarks rfl

/-- What lets a text stand between quotes of a kind. Between double quotes anything may stand, since
it is escaped. -/
def Quoting.Takes (cs : List Char) : Quoting → Prop
  | .line .double | .block .double => True
  | .line .single => (∀ c ∈ cs, isControl c = false) ∧ '\n' ∉ cs ∧ '\'' ∉ cs
  | .block .single => (∀ c ∈ cs, isControl c = false) ∧ longestRun '\'' cs 0 ≤ 2

theorem quoting_takes (cs : List Char) : (quoting cs).Takes cs := by
  simp only [quoting]
  split
  · trivial
  split
  · next h =>
    simp only [Bool.and_eq_true, Bool.not_eq_true', List.any_eq_false, List.contains_eq_mem,
      decide_eq_false_iff_not, Bool.not_eq_true] at h
    exact ⟨h.1.1, h.1.2, h.2⟩
  split
  · trivial
  split
  · next h =>
    simp only [Bool.and_eq_true, Bool.not_eq_true', List.any_eq_false, decide_eq_true_eq,
      Bool.not_eq_true] at h
    exact h
  split <;> trivial

/-- Nothing that could be taken for another quotation mark follows. -/
def Unquoted (rest : List Char) : Prop := ∀ mark : Mark, rest.head? ≠ some mark.char

section Quoting

variable {rest : List Char}

theorem readQuoted_line_double (hrest : Unquoted rest) (cs : List Char) :
    readQuoted .double (escaped false 0 0 cs ++ '"' :: rest) = some (cs, rest) := by
  refine (readQuoted_line ?_).trans (readLine_escaped cs [] rest)
  have hquote := hrest .double
  cases cs with
  | nil =>
    cases rest with
    | nil => simp [escaped]
    | cons d rest => simpa [escaped, Mark.char] using hquote
  | cons c cs =>
    rw [escaped]
    by_cases hc : c = '"'
    · simp [hc, Mark.char]
    · have hhead := head?_escapeChar_ne (by decide) (absurd · hc) false
        (escaped false 0 0 cs ++ '"' :: rest)
      rw [if_neg hc, List.append_assoc]
      intro h
      have hfirst := congrArg List.head? h
      rw [List.head?_take, if_neg (by decide)] at hfirst
      exact hhead hfirst

theorem readQuoted_line_single (hrest : Unquoted rest) {cs : List Char}
    (plain : ∀ c ∈ cs, isControl c = false) (oneLine : '\n' ∉ cs) (unquoted : '\'' ∉ cs) :
    readQuoted .single (cs ++ '\'' :: rest) = some (cs, rest) := by
  refine (readQuoted_line ?_).trans (readLine_verbatim plain oneLine unquoted [] rest)
  have hquote := hrest .single
  cases cs with
  | nil =>
    cases rest with
    | nil => simp
    | cons d rest => simpa [Mark.char] using hquote
  | cons c cs =>
    have hc : c ≠ '\'' := (List.ne_of_not_mem_cons unquoted).symm
    simp [hc, Mark.char]

theorem readQuoted_block_double (hrest : Unquoted rest) (cs : List Char) :
    readQuoted .double ('"' :: '"' :: (firstBreak cs ++
      (escaped true 2 0 cs ++ (List.replicate 3 '"' ++ rest)))) = some (cs, rest) := by
  refine (readQuoted_block .double _).trans ?_
  rw [dropFirstBreak_firstBreak]
  · exact readBlock_escaped (hrest .double) (Nat.zero_le 2) cs []
  · intro hbreaks
    cases cs with
    | nil => simp [escaped]
    | cons c cs =>
      rw [escaped]
      by_cases hc : c = '"'
      · simp [hc]
      · have hfeed : c ≠ '\n' := (List.ne_of_not_mem_cons hbreaks).symm
        rw [if_neg hc, List.append_assoc]
        exact ⟨head?_escapeChar_ne (by decide) (absurd · hfeed) _ _,
          head?_escapeChar_ne (by decide) (fun h => h ▸ rfl) _ _⟩

theorem readQuoted_block_single (hrest : Unquoted rest) {cs : List Char}
    (plain : ∀ c ∈ cs, isControl c = false) (runs : longestRun '\'' cs 0 ≤ 2) :
    readQuoted .single ('\'' :: '\'' :: (firstBreak cs ++
      (cs ++ (List.replicate 3 '\'' ++ rest)))) = some (cs, rest) := by
  refine (readQuoted_block .single _).trans ?_
  rw [dropFirstBreak_firstBreak]
  · exact readBlock_verbatim (hrest .single) plain runs []
  · intro hbreaks
    cases cs with
    | nil => simp
    | cons c cs =>
      have hfeed : c ≠ '\n' := (List.ne_of_not_mem_cons hbreaks).symm
      have hreturn := ne_of_not_isControl (plain c List.mem_cons_self)
      simp [hfeed, hreturn]

theorem readValue_mark (mark : Mark) (depth : Nat) (cs : List Char) :
    readValue depth (mark.char :: cs) =
      (readQuoted mark cs).map fun r => (.string (String.ofList r.1), r.2) := by
  cases mark <;> cases depth <;> rfl

/-- A string is read back as itself, with the quotes that were chosen for it. -/
theorem readValue_quotedChars (hrest : Unquoted rest) (depth : Nat) (cs : List Char) :
    readValue depth (quotedChars cs ++ rest) = some (.string (String.ofList cs), rest) := by
  have htakes := quoting_takes cs
  unfold quotedChars
  split
  · rw [List.append_assoc]
    exact (readValue_mark .double depth _).trans
      (congrArg _ (readQuoted_line_double hrest cs))
  · next hquoting =>
    rw [hquoting] at htakes
    obtain ⟨plain, oneLine, unquoted⟩ := htakes
    rw [List.append_assoc]
    exact (readValue_mark .single depth _).trans
      (congrArg _ (readQuoted_line_single hrest plain oneLine unquoted))
  · simp only [List.append_assoc]
    exact (readValue_mark .double depth _).trans
      (congrArg _ (readQuoted_block_double hrest cs))
  · next hquoting =>
    rw [hquoting] at htakes
    obtain ⟨plain, runs⟩ := htakes
    simp only [List.append_assoc]
    exact (readValue_mark .single depth _).trans
      (congrArg _ (readQuoted_block_single hrest plain runs))

end Quoting

end Toml

end TreePath
