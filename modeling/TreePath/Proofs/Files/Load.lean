import Mathlib.Data.Option.Basic
import TreePath.Files.Load
import TreePath.Proofs.Lists

/-!
Files and standard input. A file is unpacked because of its name and standard input because of its
first bytes, and the two never disagree on bytes that both take: packed bytes begin with two bytes
that begin no text, so that under the other kind of name the same bytes give nothing.
-/

namespace TreePath

namespace FileName

/-- The last part of the name ends in a dot and `gz`, with something in front of the dot. -/
def Packed (name : String) : Prop :=
  ∃ stem, stem ≠ [] ∧ last? name = some (stem ++ ['.', 'g', 'z'])

/-- The extension is what follows the last dot of the last part, if something stands in front of it. -/
theorem extension?_eq_some_iff {name : String} {extension : List Char} :
    extension? name = some extension ↔
      '.' ∉ extension ∧ ∃ stem, stem ≠ [] ∧ last? name = some (stem ++ '.' :: extension) := by
  have hplain (cs : List Char) : (∀ c ∈ cs, decide (c ≠ '.') = true) ↔ '.' ∉ cs := by
    simp only [decide_eq_true_iff]
    exact ⟨fun h hdot => h '.' hdot rfl, fun h c hc heq => h (heq ▸ hc)⟩
  unfold extension?
  rw [Option.bind_eq_some_iff]
  constructor
  · rintro ⟨part, hlast, hpart⟩
    cases hspan : part.reverse.span (fun c => decide (c ≠ '.')) with
    | mk reversed before =>
      obtain ⟨hsplit, hrun, hends⟩ := span_eq_iff.1 hspan
      by_cases hlength : before.length ≤ 1
      · simp only [hspan, if_pos hlength, reduceCtorEq] at hpart
      · simp only [hspan, if_neg hlength, Option.some.injEq] at hpart
        rw [← hpart, List.mem_reverse]
        refine ⟨(hplain reversed).1 hrun, ?_⟩
        obtain ⟨dot, stem, rfl⟩ : ∃ dot stem, before = dot :: stem :=
          List.exists_cons_of_length_pos (by omega)
        have hdot : dot = '.' := by simpa using hends
        have hback := congrArg List.reverse hsplit
        rw [List.reverse_reverse, hdot] at hback
        refine ⟨stem.reverse, ?_, ?_⟩
        · rw [ne_eq, List.reverse_eq_nil_iff]
          rintro rfl
          exact hlength (Nat.le_refl 1)
        · rw [hlast, hback]
          simp
  · rintro ⟨plain, stem, nonempty, hlast⟩
    have hspan : (stem ++ '.' :: extension).reverse.span (fun c => decide (c ≠ '.')) =
        (extension.reverse, '.' :: stem.reverse) := by
      apply span_eq_iff.2
      exact ⟨by simp, (hplain _).2 (mt List.mem_reverse.1 plain), rfl⟩
    have hlength : ¬ ('.' :: stem.reverse).length ≤ 1 := by
      have hpos := List.length_pos_iff.2 nonempty
      simp only [List.length_cons, List.length_reverse]
      omega
    refine ⟨_, hlast, ?_⟩
    rw [hspan]
    exact (if_neg hlength).trans (by rw [List.reverse_reverse])

theorem isGzip_iff {name : String} : isGzip name = true ↔ Packed name := by
  rw [isGzip, decide_eq_true_iff, extension?_eq_some_iff, and_iff_right (by decide)]
  rfl

end FileName

namespace Gzip

def Begins (bytes : ByteArray) : Prop := ∃ rest : ByteArray, bytes = ⟨#[0x1f, 0x8b]⟩ ++ rest

theorem hasMagic_iff {bytes : ByteArray} : hasMagic bytes = true ↔ Begins bytes := by
  have hget (i : Nat) : bytes[i]? = bytes.data.toList[i]? := by
    rw [Array.getElem?_toList]
    simp only [getElem?_def]
    rfl
  rw [hasMagic, Bool.and_eq_true, decide_eq_true_iff, decide_eq_true_iff, hget, hget]
  constructor
  · rintro ⟨hfirst, hsecond⟩
    match hbytes : bytes.data.toList, hfirst, hsecond with
    | a :: b :: rest, hfirst, hsecond =>
      obtain rfl := Option.some.inj hfirst
      obtain rfl := Option.some.inj hsecond
      refine ⟨⟨⟨rest⟩⟩, ?_⟩
      rw [ByteArray.ext_iff, ByteArray.data_append, ← Array.toList_inj, hbytes]
      simp
  · rintro ⟨rest, rfl⟩
    rw [ByteArray.data_append]
    simp

/-- No text begins as a packed one does: the first byte is a whole character, and the second begins
none. -/
theorem not_begins_of_isValidUTF8 {bytes : ByteArray} (valid : bytes.IsValidUTF8) :
    ¬ Begins bytes := by
  rintro ⟨rest, rfl⟩
  have hsplit : (⟨#[0x1f, 0x8b]⟩ : ByteArray) ++ rest =
      ['\x1f'].utf8Encode ++ ((⟨#[0x8b]⟩ : ByteArray) ++ rest) := by
    rw [← ByteArray.append_assoc]
    rfl
  rw [hsplit, ByteArray.isValidUTF8_utf8Encode_singleton_append_iff] at valid
  have hone : (⟨#[0x8b]⟩ : ByteArray).size = 1 := rfl
  have hfirst := valid.isUTF8FirstByte_getElem_zero (by rw [ByteArray.size_append]; omega)
  rw [ByteArray.getElem_append_left (by decide)] at hfirst
  exact absurd hfirst (by decide)

/-- Only what begins as a member does is unpacked. -/
theorem begins_of_unpack? {bytes content : ByteArray} (h : unpack? bytes = some content) :
    Begins bytes := by
  obtain ⟨start, hstart, -⟩ := Option.bind_eq_some_iff.1 h
  obtain ⟨_, hguard, -⟩ := Option.bind_eq_some_iff.1 hstart
  rw [← hasMagic_iff]
  by_contra hmagic
  simp [hmagic] at hguard

end Gzip

theorem orError_eq_ok_iff {α ε : Type} {e : ε} {a? : Option α} {a : α} :
    orError e a? = .ok a ↔ a? = some a := by
  cases a? <;> simp [orError]

/-- A text is read from its own bytes and from no others. -/
theorem fromUTF8?_eq_some_iff {bytes : ByteArray} {text : String} :
    String.fromUTF8? bytes = some text ↔ text.toUTF8 = bytes := by
  unfold String.fromUTF8?
  constructor
  · intro h
    split at h
    · rw [← Option.some.inj h]
      rfl
    · contradiction
  · rintro rfl
    exact dif_pos text.isValidUTF8

theorem not_begins_toUTF8 (text : String) : ¬ Gzip.Begins text.toUTF8 :=
  Gzip.not_begins_of_isValidUTF8 text.isValidUTF8

theorem begins_of_packedText? {bytes : ByteArray} {text : String}
    (h : packedText? bytes = some text) : Gzip.Begins bytes := by
  obtain ⟨content, hcontent, -⟩ := Option.bind_eq_some_iff.1 h
  exact Gzip.begins_of_unpack? hcontent

section Routes

variable {bytes : ByteArray} {name : String}

theorem loadInput_of_begins (begins : Gzip.Begins bytes) :
    loadInput bytes = orError .corruptInput (packedText? bytes) := by
  rw [loadInput, if_pos (Gzip.hasMagic_iff.2 begins)]

theorem loadInput_of_not_begins (plain : ¬ Gzip.Begins bytes) :
    loadInput bytes = orError .notText (String.fromUTF8? bytes) := by
  rw [loadInput, if_neg (mt Gzip.hasMagic_iff.1 plain)]

theorem loadFile_of_packed (packed : FileName.Packed name) :
    loadFile name (.file bytes) = orError .corruptFile (packedText? bytes) := by
  rw [loadFile, if_pos (FileName.isGzip_iff.2 packed)]

theorem loadFile_of_not_packed (plain : ¬ FileName.Packed name) :
    loadFile name (.file bytes) = orError (.unreadable name) (String.fromUTF8? bytes) := by
  rw [loadFile, if_neg (mt FileName.isGzip_iff.1 plain)]
  rfl

/-- Bytes that begin as packed ones do give nothing under a name for plain text. -/
theorem loadFile_error_of_begins (begins : Gzip.Begins bytes) (plain : ¬ FileName.Packed name) :
    loadFile name (.file bytes) = .error (.unreadable name) := by
  have hnone : String.fromUTF8? bytes = none := by
    rw [Option.eq_none_iff_forall_ne_some]
    intro text htext
    exact not_begins_toUTF8 text (fromUTF8?_eq_some_iff.1 htext ▸ begins)
  rw [loadFile_of_not_packed plain, hnone]
  rfl

/-- Bytes that begin otherwise give nothing under a packed name. -/
theorem loadFile_error_of_not_begins (begins : ¬ Gzip.Begins bytes)
    (packed : FileName.Packed name) : loadFile name (.file bytes) = .error .corruptFile := by
  have hnone : packedText? bytes = none := by
    rw [Option.eq_none_iff_forall_ne_some]
    exact fun text htext => begins (begins_of_packedText? htext)
  rw [loadFile_of_packed packed, hnone]
  rfl

end Routes

/-- Standard input gives every text from its own bytes. Whatever the bytes are, it gives a text exactly
where a file of these bytes does under the one kind of name that their beginning asks for, and under
the other kind the file gives none; so a text that a file gives under any name at all, standard input
gives too. -/
theorem loadInput_iff_loadFile (bytes : ByteArray) {packed plain : String}
    (hpacked : FileName.Packed packed) (hplain : ¬ FileName.Packed plain) :
    (∀ text : String, text.toUTF8 = bytes → loadInput bytes = .ok text) ∧
    (∀ text, loadInput bytes = .ok text ↔
      (Gzip.Begins bytes ∧ loadFile packed (.file bytes) = .ok text ∧
        loadFile plain (.file bytes) = .error (.unreadable plain)) ∨
      (¬ Gzip.Begins bytes ∧ loadFile plain (.file bytes) = .ok text ∧
        loadFile packed (.file bytes) = .error .corruptFile)) ∧
    (∀ name text, loadFile name (.file bytes) = .ok text → loadInput bytes = .ok text) := by
  refine ⟨?_, ?_, ?_⟩
  · rintro text rfl
    rw [loadInput_of_not_begins (not_begins_toUTF8 text), orError_eq_ok_iff, fromUTF8?_eq_some_iff]
  · intro text
    by_cases begins : Gzip.Begins bytes
    · rw [loadInput_of_begins begins, loadFile_of_packed hpacked,
        loadFile_error_of_begins begins hplain, orError_eq_ok_iff, orError_eq_ok_iff]
      simp [begins]
    · rw [loadInput_of_not_begins begins, loadFile_of_not_packed hplain,
        loadFile_error_of_not_begins begins hpacked, orError_eq_ok_iff, orError_eq_ok_iff]
      simp [begins]
  · intro name text hname
    by_cases named : FileName.Packed name
    · rw [loadFile_of_packed named, orError_eq_ok_iff] at hname
      rw [loadInput_of_begins (begins_of_packedText? hname), orError_eq_ok_iff, hname]
    · rw [loadFile_of_not_packed named, orError_eq_ok_iff, fromUTF8?_eq_some_iff] at hname
      rw [← hname, loadInput_of_not_begins (not_begins_toUTF8 text), orError_eq_ok_iff,
        fromUTF8?_eq_some_iff]

/-- A member with a stored block of one byte, the digit one. -/
def storedDigit : ByteArray :=
  ⟨#[0x1f, 0x8b, 8, 0, 0, 0, 0, 0, 0, 0xff, 1, 1, 0, 0xfe, 0xff, 0x31, 0xb7, 0xef, 0xdc, 0x83,
    1, 0, 0, 0]⟩

/-- A dot at the end of a path does not count, and one in front of a name starts no extension. -/
theorem loadInput_iff_loadFile_member :
    FileName.Packed "a.gz/." ∧ ¬ FileName.Packed "a/.gz" ∧ loadInput storedDigit = .ok "1" ∧
    loadFile "a.gz/." (.file storedDigit) = .ok "1" ∧
    loadFile "a/.gz" (.file storedDigit) = .error (.unreadable "a/.gz") := by
  have hpacked : FileName.Packed "a.gz/." := FileName.isGzip_iff.1 (by decide)
  have hplain : ¬ FileName.Packed "a/.gz" := mt FileName.isGzip_iff.2 (by decide)
  have hinput : loadInput storedDigit = .ok "1" := by decide +kernel
  obtain ⟨-, hiff, -⟩ := loadInput_iff_loadFile storedDigit hpacked hplain
  rcases (hiff "1").1 hinput with ⟨-, hloads, hfails⟩ | ⟨hbegins, -⟩
  · exact ⟨hpacked, hplain, hinput, hloads, hfails⟩
  · exact absurd (Gzip.hasMagic_iff.1 (by decide)) hbegins

end TreePath
