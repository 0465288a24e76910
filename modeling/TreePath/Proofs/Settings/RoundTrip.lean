import TreePath.Proofs.Settings.Load
import TreePath.Proofs.Toml.Lines

/-!
Settings as text. They can be written unless the capacity is too large for an integer of the text, and
what was written is read back as the same settings, whatever characters the filter has.
-/

namespace TreePath

namespace Settings

variable {s : Settings}

theorem exists_write?_iff : (∃ text, s.write? = some text) ↔ s.cacheCapacity.toNat ≤ 2 ^ 63 - 1 := by
  have hbound : s.cacheCapacity.toNat < 0x8000000000000000 ↔
      s.cacheCapacity.toNat ≤ 2 ^ 63 - 1 := by omega
  rw [← hbound, write?]
  split
  · next hsmall => exact iff_of_true ⟨_, rfl⟩ hsmall
  · next hlarge => exact iff_of_false (by simp) hlarge

/-- The capacity as a signed integer, which it is unless it is too large. -/
def signedCapacity (s : Settings) : Int64 := Int64.ofNat s.cacheCapacity.toNat

theorem toInt_signedCapacity (hsmall : s.cacheCapacity.toNat ≤ 2 ^ 63 - 1) :
    s.signedCapacity.toInt = s.cacheCapacity.toNat :=
  Int64.toInt_ofNat_of_lt (by omega)

def lines (s : Settings) : List Toml.Line :=
  [⟨"path_cache_capacity", (toString s.signedCapacity.toInt).toList, .integer s.signedCapacity,
      by decide, rfl, Toml.spells_integer _⟩,
    ⟨"log_filter", Toml.quotedChars s.logFilter.toList, .string s.logFilter,
      by decide, rfl, Toml.spells_quoted _⟩,
    ⟨"pretty_output", (if s.prettyOutput then "true" else "false").toList, .boolean s.prettyOutput,
      by decide, rfl, Toml.spells_boolean _⟩]

theorem nodup_keys_lines (s : Settings) : (s.lines.map Toml.Line.key).Nodup := by
  simp [lines]

section Small

variable (hsmall : s.cacheCapacity.toNat ≤ 2 ^ 63 - 1)

include hsmall

theorem write?_eq_lines : s.write? = some (String.ofList (s.lines.flatMap Toml.Line.chars)) := by
  have hbound : s.cacheCapacity.toNat < 0x8000000000000000 := by omega
  have hcapacity : toString s.signedCapacity.toInt = toString s.cacheCapacity.toNat := by
    rw [toInt_signedCapacity hsmall]
    rfl
  rw [write?, if_pos hbound, ← hcapacity, Option.some.injEq, ← String.toList_inj]
  simp [lines, Toml.Line.chars]

theorem describes_lines : Describes (s.lines.map Toml.Line.entry) s where
  cacheCapacity := .present (by simp [lines, Toml.Line.entry])
    ⟨s.signedCapacity, rfl, toInt_signedCapacity hsmall⟩
  logFilter := .present (by simp [lines, Toml.Line.entry]) rfl
  prettyOutput := .present (by simp [lines, Toml.Line.entry]) rfl

theorem read?_lines : read? (String.ofList (s.lines.flatMap Toml.Line.chars)) = some s := by
  have htable := Toml.read?_lines s.nodup_keys_lines
  rw [read?, htable, Option.bind_some, ofTable?_eq_some_iff (Toml.nodup_keys_of_read? htable)]
  exact describes_lines hsmall

end Small

/-- What was written is read back. -/
theorem read?_of_write? {text : String} (h : s.write? = some text) : read? text = some s := by
  have hsmall := exists_write?_iff.1 ⟨text, h⟩
  rw [write?_eq_lines hsmall] at h
  rw [← Option.some.inj h]
  exact read?_lines hsmall

/-- From a file with the text that was written the settings are loaded again, in silence. -/
theorem load_of_write? {text : String} (h : s.write? = some text) (path : String) :
    load path (.file text.toUTF8) = .quiet s := by
  rw [load, text?_toUTF8]
  dsimp only
  rw [read?_of_write? h]

/-- Settings can be written unless the capacity has no signed integer of 64 bits, and they are read
back from the text. -/
theorem written_iff_and_read_back (s : Settings) :
    ((∃ text, s.write? = some text) ↔ s.cacheCapacity.toNat ≤ 2 ^ 63 - 1) ∧
      ∀ text, s.write? = some text → read? text = some s :=
  ⟨exists_write?_iff, fun _ => read?_of_write?⟩

/-- The largest capacity that can be written, beside a filter with three marks in a row, a break and a
control character. With one more the settings cannot be written. -/
theorem written_iff_and_read_back_largest :
    let s : Settings := ⟨0x7fffffffffffffff, "\"\"\"\n\\'\x07", false⟩
    let text := "path_cache_capacity = 9223372036854775807\n" ++
      "log_filter = \"\"\"\n\"\"\\\"\n\\\\'\\u0007\"\"\"\n" ++ "pretty_output = false\n"
    s.write? = some text ∧ read? text = some s ∧
      ¬ ∃ text, (⟨0x8000000000000000, s.logFilter, false⟩ : Settings).write? = some text := by
  intro s text
  have hwritten : s.write? = some text := by decide +kernel
  have hlarge : ¬ (0x8000000000000000 : UInt64).toNat ≤ 2 ^ 63 - 1 := by decide
  exact ⟨hwritten, (written_iff_and_read_back s).2 text hwritten,
    mt (written_iff_and_read_back _).1.1 hlarge⟩

end Settings

end TreePath
