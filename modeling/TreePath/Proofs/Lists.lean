import Mathlib.Data.List.Perm.Subperm
import Mathlib.Data.List.TakeDrop
import Mathlib.Data.List.TakeWhile

/-!
Two things about lists that readers and trees share: the run of items of one class that a list begins
with, and the values under keys, where the first one under a key is the one that is found.
-/

namespace TreePath

section Span

variable {α : Type} {p : α → Bool} {run rest items : List α}

/-- A run ends where it is followed by something else. -/
theorem span_append (all : ∀ a ∈ run, p a) (ends : rest.head?.any p = false) :
    (run ++ rest).span p = (run, rest) := by
  rw [List.span_eq_takeWhile_dropWhile, List.takeWhile_append_of_pos all,
    List.dropWhile_append_of_pos all]
  cases rest with
  | nil => simp
  | cons a rest =>
    have ha : p a = false := by simpa using ends
    simp [ha]

theorem span_eq_iff :
    items.span p = (run, rest) ↔
      items = run ++ rest ∧ (∀ a ∈ run, p a) ∧ rest.head?.any p = false := by
  constructor
  · intro h
    rw [List.span_eq_takeWhile_dropWhile] at h
    obtain ⟨rfl, rfl⟩ := Prod.mk.inj h
    refine ⟨List.takeWhile_append_dropWhile.symm, fun a => List.mem_takeWhile_imp, ?_⟩
    have hhead := List.head?_dropWhile_not p items
    cases hrest : (items.dropWhile p).head? with
    | none => rfl
    | some a => simpa [hrest] using hhead
  · rintro ⟨rfl, all, ends⟩
    exact span_append all ends

end Span

namespace Keyed

variable {α β : Type} {entries : List (String × α)} {others : List (String × β)}

theorem mem_of_lookup {key : String} {value : α} (h : entries.lookup key = some value) :
    (key, value) ∈ entries := by
  obtain ⟨before, after, rfl, -⟩ := List.lookup_eq_some_iff.1 h
  simp

theorem mem_keys_of_lookup {key : String} {value : α} (h : entries.lookup key = some value) :
    key ∈ entries.map Prod.fst :=
  List.mem_map_of_mem (mem_of_lookup h)

theorem lookup_eq_none_iff {key : String} :
    entries.lookup key = none ↔ key ∉ entries.map Prod.fst := by
  rw [List.lookup_eq_none_iff, List.mem_map, not_exists]
  apply forall_congr'
  intro e
  rw [not_and, bne_iff_ne, ne_comm]

theorem lookup_of_mem (keys : (entries.map Prod.fst).Nodup) {e : String × α} (he : e ∈ entries) :
    entries.lookup e.1 = some e.2 := by
  induction entries with
  | nil => contradiction
  | cons first rest ih =>
    obtain ⟨hfirst, hrest⟩ := List.nodup_cons.1 keys
    rw [List.lookup_cons]
    cases List.mem_cons.1 he with
    | inl h => simp [h]
    | inr h =>
      have hne : e.1 ≠ first.1 := by
        intro heq
        exact hfirst (heq ▸ List.mem_map_of_mem h)
      rw [beq_eq_false_iff_ne.2 hne]
      exact ih hrest h

/-- Other entries under all of the keys, and no more of them than there are keys, repeat no key and have
no further one. -/
theorem keys_perm (keys : (entries.map Prod.fst).Nodup) (length : entries.length = others.length)
    (matched : ∀ e ∈ entries, ∃ value, others.lookup e.1 = some value) :
    (entries.map Prod.fst).Perm (others.map Prod.fst) := by
  have hsubset : entries.map Prod.fst ⊆ others.map Prod.fst := by
    intro key hkey
    obtain ⟨e, he, rfl⟩ := List.mem_map.1 hkey
    obtain ⟨value, hvalue⟩ := matched e he
    exact mem_keys_of_lookup hvalue
  apply (List.subperm_of_subset keys hsubset).perm_of_length_le
  simp [length]

end Keyed

end TreePath
