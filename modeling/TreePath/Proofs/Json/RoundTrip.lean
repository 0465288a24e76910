import TreePath.Json.Writer
import TreePath.Proofs.Json.Spelling
import TreePath.Proofs.Json.Tokens

/-!
What is written is read back. The text of a value is scanned as the tokens of the value, with the
literals of its numbers, in either style; and the tokens give the value exactly where it fits.
-/

namespace TreePath

namespace Json

namespace Scan

def run (s : Scan) (chars : List Char) : Option (List (Token Literal)) :=
  (chars.foldlM step s).bind finish

theorem run_cons (s : Scan) (c : Char) (chars : List Char) :
    s.run (c :: chars) = (s.step c).bind fun next => next.run chars := by
  rw [run, List.foldlM_cons]
  exact Option.bind_assoc (s.step c) _ _

theorem run_of_step {s next : Scan} {c : Char} (h : s.step c = some next) (chars : List Char) :
    s.run (c :: chars) = next.run chars := by
  rw [run_cons, h, Option.bind_some]

/-- A number ends in front of a character that no number holds, and at the end of the text. -/
theorem run_number {finished : List (Token Literal)} {chars rest : List Char} {l : Literal}
    (h : Literal.ofChars? chars.reverse = some l) (hrest : rest.head?.any isNumberChar = false) :
    run ⟨finished, .number chars⟩ rest = run ⟨.number l :: finished, .between⟩ rest := by
  have hend : endNumber finished chars = some (.number l :: finished) := by
    rw [endNumber, h, Option.map_some]
  cases rest with
  | nil =>
    have hfinish : finish ⟨finished, .number chars⟩ = finish ⟨.number l :: finished, .between⟩ := by
      simp only [finish, hend, Option.map_some]
    exact hfinish
  | cons c rest =>
    have hc : isNumberChar c = false := by simpa using hrest
    have hstep : step ⟨finished, .number chars⟩ c = step ⟨.number l :: finished, .between⟩ c := by
      simp [step, hc, hend]
    rw [run_cons, run_cons, hstep]

/-- The characters of a number are taken one after the other. -/
theorem run_numberChars {chars : List Char} (h : ∀ c ∈ chars, isNumberChar c = true)
    (finished : List (Token Literal)) (earlier rest : List Char) :
    run ⟨finished, .number earlier⟩ (chars ++ rest) =
      run ⟨finished, .number (chars.reverse ++ earlier)⟩ rest := by
  induction chars generalizing earlier with
  | nil => rfl
  | cons c chars ih =>
    obtain ⟨hc, hchars⟩ := List.forall_mem_cons.1 h
    have hstep : step ⟨finished, .number earlier⟩ c = some ⟨finished, .number (c :: earlier)⟩ := by
      simp [step, hc]
    rw [List.cons_append, run_of_step hstep, ih hchars, List.reverse_cons, List.append_assoc]
    rfl

/-- A digit of a unit is added behind those that were taken. -/
theorem run_unit {digit : Nat} (hdigit : digit < 16) (finished : List (Token Literal))
    (earlier : List Char) (missing value : Nat) (rest : List Char) :
    run ⟨finished, .unit earlier none (missing + 2) value⟩ (Nat.digitChar digit :: rest) =
      run ⟨finished, .unit earlier none (missing + 1) (16 * value + digit)⟩ rest := by
  apply run_of_step
  simp [step, hexDigit?_digitChar hdigit]

/-- The last digit of a unit that is no surrogate completes a character. -/
theorem run_unit_last {digit value : Nat} {c : Char} (hdigit : digit < 16)
    (hvalue : 16 * value + digit = c.toNat) (hc : c.toNat < 0xD800)
    (finished : List (Token Literal)) (earlier rest : List Char) :
    run ⟨finished, .unit earlier none 1 value⟩ (Nat.digitChar digit :: rest) =
      run ⟨finished, .text (c :: earlier)⟩ rest := by
  have hhigh : isHighSurrogate c.toNat = false := by
    simp only [isHighSurrogate, Bool.and_eq_false_iff, decide_eq_false_iff_not]
    omega
  apply run_of_step
  simp [step, hexDigit?_digitChar hdigit, hvalue, endUnit, hhigh, scalar?_toNat]

/-- Four hexadecimal digits are read as the character that they count. -/
theorem run_unitChars {c : Char} (hc : c.toNat < 0xD800) (finished : List (Token Literal))
    (earlier rest : List Char) :
    run ⟨finished, .unit earlier none 4 0⟩ (hexChars 4 c.toNat ++ rest) =
      run ⟨finished, .text (c :: earlier)⟩ rest := by
  have hdigit : ∀ n, n % 16 < 16 := fun n => Nat.mod_lt n (by decide)
  simp only [hexChars, List.nil_append, List.cons_append]
  rw [run_unit (hdigit _), run_unit (hdigit _), run_unit (hdigit _)]
  exact run_unit_last (hdigit _) (by omega) hc finished earlier rest

/-- A character in its written form is read as itself. -/
theorem run_escapeChar (finished : List (Token Literal)) (earlier : List Char) (c : Char)
    (rest : List Char) :
    run ⟨finished, .text earlier⟩ (escapeChar c ++ rest) =
      run ⟨finished, .text (c :: earlier)⟩ rest := by
  unfold escapeChar
  split
  · rfl
  · rfl
  · rfl
  · rfl
  · rfl
  · rfl
  · rfl
  · next hquote hbackslash _ _ _ _ _ =>
    split
    · exact run_unitChars (by omega) finished earlier rest
    · next hplain =>
      apply run_of_step
      simp only [step]
      rw [if_neg hquote, if_neg hbackslash, if_neg hplain]

/-- A text in its written form is read as itself. -/
theorem run_quote (finished : List (Token Literal)) (s : String) (rest : List Char) :
    run ⟨finished, .between⟩ (quote s ++ rest) = run ⟨.string s :: finished, .between⟩ rest := by
  have hchars : ∀ (chars earlier : List Char),
      run ⟨finished, .text earlier⟩ (chars.flatMap escapeChar ++ '"' :: rest) =
        run ⟨.string (String.ofList (earlier.reverse ++ chars)) :: finished, .between⟩ rest := by
    intro chars
    induction chars with
    | nil =>
      intro earlier
      rw [List.append_nil]
      exact run_of_step rfl rest
    | cons c chars ih =>
      intro earlier
      rw [List.flatMap_cons, List.append_assoc, run_escapeChar, ih, List.reverse_cons,
        List.append_assoc]
      rfl
  have hall := hchars s.toList []
  rw [List.reverse_nil, List.nil_append, String.ofList_toList] at hall
  rw [quote, List.append_assoc]
  exact hall

end Scan

/-- The characters are scanned as the tokens wherever they stand between others. A number would not
end in front of another of its characters. -/
def Spells (chars : List Char) (tokens : List (Token Literal)) : Prop :=
  ∀ finished rest, rest.head?.any isNumberChar = false →
    Scan.run ⟨finished, .between⟩ (chars ++ rest) =
      Scan.run ⟨tokens.reverse ++ finished, .between⟩ rest

namespace Spells

variable {chars more : List Char} {tokens later : List (Token Literal)}

theorem nil : Spells [] [] := fun _ _ _ => rfl

/-- What follows may begin with anything but a character of numbers. -/
theorem append (h : Spells chars tokens) (hmore : Spells more later)
    (hhead : more.head?.any isNumberChar = false) : Spells (chars ++ more) (tokens ++ later) := by
  intro finished rest hrest
  have hnext : (more ++ rest).head?.any isNumberChar = false := by
    cases more with
    | nil => exact hrest
    | cons c more => exact hhead
  rw [List.append_assoc, h finished _ hnext, hmore _ rest hrest, List.reverse_append,
    List.append_assoc]

/-- A mark is a token of its own. -/
theorem cons {c : Char} (token : Token Literal)
    (hc : ∀ finished, Scan.step ⟨finished, .between⟩ c = some ⟨token :: finished, .between⟩)
    (h : Spells chars tokens) : Spells (c :: chars) (token :: tokens) := by
  intro finished rest hrest
  rw [List.cons_append, Scan.run_of_step (hc finished), h _ rest hrest, List.reverse_cons,
    List.append_assoc]
  rfl

theorem blanks_append {blanks : List Char} (hblanks : ∀ c ∈ blanks, isBlank c = true)
    (h : Spells chars tokens) : Spells (blanks ++ chars) tokens := by
  induction blanks with
  | nil => exact h
  | cons c blanks ih =>
    obtain ⟨hc, hblanks⟩ := List.forall_mem_cons.1 hblanks
    intro finished rest hrest
    have hstep : Scan.step ⟨finished, .between⟩ c = some ⟨finished, .between⟩ := by
      simp [Scan.step, Scan.start, hc]
    rw [List.cons_append, List.cons_append, Scan.run_of_step hstep]
    exact ih hblanks finished rest hrest

theorem quote_append (s : String) (h : Spells chars tokens) :
    Spells (quote s ++ chars) (.string s :: tokens) := by
  intro finished rest hrest
  rw [List.append_assoc, Scan.run_quote, h _ rest hrest, List.reverse_cons, List.append_assoc]
  rfl

theorem literal {l : Literal} (h : l.WellSpelled) : Spells l.chars [.number l] := by
  intro finished rest hrest
  obtain ⟨c, chars, hchars, hc⟩ := Literal.exists_chars_eq_cons h
  have hnumber := Literal.isNumberChar_of_mem_chars h
  have hread := Literal.ofChars?_chars h
  rw [hchars] at hnumber hread ⊢
  have hblank : isBlank c = false := by
    rw [Bool.eq_false_iff]
    intro hblank
    simp only [isBlank, Bool.or_eq_true, decide_eq_true_eq] at hblank
    rcases hblank with ((rfl | rfl) | rfl) | rfl <;> contradiction
  have hstep : Scan.step ⟨finished, .between⟩ c = some ⟨finished, .number [c]⟩ := by
    simp only [Scan.step, Scan.start, hblank, hc, Bool.false_eq_true, if_false, if_true]
  have hall : Literal.ofChars? (chars.reverse ++ [c]).reverse = some l := by
    rwa [List.reverse_append, List.reverse_reverse]
  rw [List.cons_append, Scan.run_of_step hstep,
    Scan.run_numberChars (List.forall_mem_cons.1 hnumber).2, Scan.run_number hall hrest]
  rfl

variable (style : Style) (depth : Nat)

theorem isBlank_lineBreak : ∀ c ∈ style.lineBreak depth, isBlank c = true := by
  cases style with
  | compact => simp [Style.lineBreak]
  | indented =>
    refine List.forall_mem_cons.2 ⟨by decide, ?_⟩
    intro c hc
    rw [List.eq_of_mem_replicate hc]
    rfl

/-- A line break before a mark begins with no character of numbers. -/
theorem head?_lineBreak_append {c : Char} (hc : isNumberChar c = false) :
    (style.lineBreak depth ++ [c]).head?.any isNumberChar = false := by
  cases style with
  | compact => simpa [Style.lineBreak] using hc
  | indented => rfl

/-- Items with a comma between any two of them. -/
theorem items {items : List (Tree Number)}
    (h : ∀ t ∈ items, ∀ depth,
      Spells (Value.chars style depth t) (t.tokens.map (Token.map Number.literal))) :
    Spells (itemsChars style depth items)
      ((Tree.itemsTokens items).map (Token.map Number.literal)) := by
  induction items with
  | nil => exact nil
  | cons t rest ih =>
    obtain ⟨ht, hrest⟩ := List.forall_mem_cons.1 h
    have hitem := blanks_append (isBlank_lineBreak style depth) (ht depth)
    cases rest with
    | nil => simpa [itemsChars, Tree.itemsTokens] using hitem
    | cons u rest =>
      have hcomma := cons (c := ',') .comma (fun _ => rfl) (ih hrest)
      have hitems := append hitem hcomma rfl
      simpa [itemsChars, Tree.itemsTokens, Token.map] using hitems

/-- Entries with a comma between any two of them. -/
theorem entries {entries : Entries Number}
    (h : ∀ e ∈ entries, ∀ depth,
      Spells (Value.chars style depth e.2) (e.2.tokens.map (Token.map Number.literal))) :
    Spells (entriesChars style depth entries)
      ((Tree.entriesTokens entries).map (Token.map Number.literal)) := by
  induction entries with
  | nil => exact nil
  | cons e rest ih =>
    obtain ⟨key, t⟩ := e
    obtain ⟨ht, hrest⟩ := List.forall_mem_cons.1 h
    have hcolon : Spells (style.colon ++ Value.chars style depth t)
        (.colon :: t.tokens.map (Token.map Number.literal)) := by
      cases style with
      | compact => exact cons .colon (fun _ => rfl) (ht depth)
      | indented =>
        have hblank : ∀ c ∈ [' '], isBlank c = true := List.forall_mem_singleton.2 rfl
        exact cons .colon (fun _ => rfl) (blanks_append hblank (ht depth))
    have hentry := blanks_append (isBlank_lineBreak style depth) (quote_append key hcolon)
    cases rest with
    | nil => simpa [entriesChars, Tree.entriesTokens, Token.map] using hentry
    | cons u rest =>
      have hcomma := cons (c := ',') .comma (fun _ => rfl) (ih hrest)
      have hentries := append hentry hcomma rfl
      simpa [entriesChars, Tree.entriesTokens, Token.map] using hentries

/-- A value is scanned as its tokens. -/
theorem value (style : Style) (t : Tree Number) (depth : Nat) :
    Spells (Value.chars style depth t) (t.tokens.map (Token.map Number.literal)) := by
  induction t using Tree.induction generalizing depth with
  | null => exact fun _ _ _ => rfl
  | boolean b => cases b <;> exact fun _ _ _ => rfl
  | number n =>
    rw [Value.chars, n.text_eq]
    exact literal n.wellSpelled_literal
  | string s => simpa [Value.chars, Tree.tokens, Token.map] using quote_append s nil
  | array items ih =>
    cases items with
    | nil => exact cons .arrayStart (fun _ => rfl) (cons .arrayEnd (fun _ => rfl) nil)
    | cons t rest =>
      have hclose : Spells (style.lineBreak depth ++ [']']) [.arrayEnd] :=
        blanks_append (isBlank_lineBreak style depth) (cons .arrayEnd (fun _ => rfl) nil)
      have hitems :=
        append (items style (depth + 1) ih) hclose (head?_lineBreak_append style depth rfl)
      have hopen := cons (c := '[') .arrayStart (fun _ => rfl) hitems
      simpa [Value.chars, Tree.tokens, Token.map] using hopen
  | object entries ih =>
    cases entries with
    | nil => exact cons .objectStart (fun _ => rfl) (cons .objectEnd (fun _ => rfl) nil)
    | cons e rest =>
      have hclose : Spells (style.lineBreak depth ++ ['}']) [.objectEnd] :=
        blanks_append (isBlank_lineBreak style depth) (cons .objectEnd (fun _ => rfl) nil)
      have hentries :=
        append (entries style (depth + 1) ih) hclose (head?_lineBreak_append style depth rfl)
      have hopen := cons (c := '{') .objectStart (fun _ => rfl) hentries
      simpa [Value.chars, Tree.tokens, Token.map] using hopen

end Spells

/-- The tokens of the text of a value are the tokens of the value. -/
theorem tokens?_write (style : Style) (v : Value) :
    tokens? (write style v) = some (v.tokens.map (Token.map Number.literal)) := by
  have h := Spells.value style v 0 [] [] rfl
  rw [List.append_nil, List.append_nil] at h
  rw [tokens?, write, String.toList_ofList]
  refine h.trans ?_
  rw [Scan.run, List.foldlM_nil]
  exact congrArg some (List.reverse_reverse _)

/-!
Reading the tokens back as a value.
-/

theorem mapNumber?_map_literal (token : Token Number) :
    (token.map Number.literal).mapNumber? Literal.number? = some token := by
  cases token with
  | number n => simp [Token.map, Token.mapNumber?, n.number?_literal]
  | _ => rfl

/-- The literals that numbers are written as denote the numbers. -/
theorem mapM_literals (tokens : List (Token Number)) :
    (tokens.map (Token.map Number.literal)).mapM (Token.mapNumber? Literal.number?) =
      some tokens := by
  induction tokens with
  | nil => rfl
  | cons token tokens ih => simp [mapNumber?_map_literal, ih]

/-- A value is read back from its text exactly where it repeats no key and is nested no deeper than
is allowed, as every value is that was read from a text. -/
theorem read?_write_iff (style : Style) (v : Value) :
    read? (write style v) = some v ↔ Fits 0 v := by
  rw [read?, tokens?_write, Option.bind_some, mapM_literals, Option.bind_some, build?_tokens_iff]

/-- Every node of a value that was read is read back from its own text. -/
theorem read?_write_of_at? {text : String} {v node : Value} (h : read? text = some v) {path : Path}
    (hnode : v.at? path = some node) (style : Style) : read? (write style node) = some node :=
  (read?_write_iff style node).2 ((fits_of_read? h).at? hnode)

end Json

end TreePath
