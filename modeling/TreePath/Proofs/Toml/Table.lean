import TreePath.Proofs.Lists
import TreePath.Toml.Reader

/-!
Keys of tables. Whatever a statement adds or changes, it repeats no key of the table it stands in, so
that no key of a text has two values.
-/

namespace TreePath

namespace Toml

namespace Items

def DistinctKeys (items : Items) : Prop := (items.map Prod.fst).Nodup

variable {items changed : Items} {key : String}

theorem DistinctKeys.replace (h : items.DistinctKeys) (item : Item) :
    (replace key item items).DistinctKeys := by
  have hkeys : (Items.replace key item items).map Prod.fst = items.map Prod.fst := by
    rw [Items.replace, List.map_map]
    apply List.map_congr_left
    intro e _
    by_cases he : e.1 = key
    · simp [he]
    · simp [he]
  rwa [DistinctKeys, hkeys]

theorem DistinctKeys.concat (h : items.DistinctKeys) (missing : items.lookup key = none)
    (item : Item) : DistinctKeys (items ++ [(key, item)]) := by
  rw [DistinctKeys, List.map_append]
  refine List.nodup_append.2 ⟨h, by simp, ?_⟩
  intro k hk l hl heq
  rw [List.map_singleton, List.mem_singleton] at hl
  rw [heq, hl] at hk
  exact Keyed.lookup_eq_none_iff.1 missing hk

theorem DistinctKeys.put {value : Value} {takes : Bool} {path : List String}
    (h : items.DistinctKeys) (hput : put value takes path items = some changed) :
    changed.DistinctKeys := by
  match path with
  | [] => contradiction
  | [key] =>
    rw [Items.put] at hput
    split at hput
    · next hnew =>
      rw [← Option.some.inj hput]
      rw [Bool.and_eq_true, Option.isNone_iff_eq_none] at hnew
      exact h.concat hnew.2 _
    · contradiction
  | key :: next :: rest =>
    rw [Items.put] at hput
    · split at hput
      · next hmissing =>
        obtain ⟨inner, -, rfl⟩ := Option.map_eq_some_iff.1 hput
        exact h.concat hmissing _
      · split at hput
        · contradiction
        · obtain ⟨inner, -, rfl⟩ := Option.map_eq_some_iff.1 hput
          exact h.replace _
      · obtain ⟨inner, -, rfl⟩ := Option.map_eq_some_iff.1 hput
        exact h.replace _
      · contradiction
    · simp

/-- Whatever a header leads to, what is changed there keeps the keys of the top distinct. -/
theorem DistinctKeys.within {change : Items → Option Items} {path : List String}
    (h : items.DistinctKeys)
    (hchange : ∀ items changed : Items, items.DistinctKeys → change items = some changed →
      changed.DistinctKeys)
    (hwithin : within change path items = some changed) : changed.DistinctKeys := by
  cases path with
  | nil => exact hchange _ _ h hwithin
  | cons key rest =>
    rw [Items.within] at hwithin
    split at hwithin
    · next hmissing =>
      obtain ⟨inner, -, rfl⟩ := Option.map_eq_some_iff.1 hwithin
      exact h.concat hmissing _
    · obtain ⟨inner, -, rfl⟩ := Option.map_eq_some_iff.1 hwithin
      exact h.replace _
    · obtain ⟨inner, -, rfl⟩ := Option.map_eq_some_iff.1 hwithin
      exact h.replace _
    · contradiction

theorem DistinctKeys.openTable (h : items.DistinctKeys)
    (hopen : openTable key items = some changed) : changed.DistinctKeys := by
  rw [Items.openTable] at hopen
  split at hopen
  · next hmissing =>
    rw [← Option.some.inj hopen]
    exact h.concat hmissing _
  · rw [← Option.some.inj hopen]
    exact h.replace _
  · contradiction

theorem DistinctKeys.openItem (h : items.DistinctKeys)
    (hopen : openItem key items = some changed) : changed.DistinctKeys := by
  rw [Items.openItem] at hopen
  split at hopen
  · next hmissing =>
    rw [← Option.some.inj hopen]
    exact h.concat hmissing _
  · rw [← Option.some.inj hopen]
    exact h.replace _
  · contradiction

theorem DistinctKeys.atHeader {change : String → Items → Option Items} {path : List String}
    (h : items.DistinctKeys)
    (hchange : ∀ (key : String) (items changed : Items), items.DistinctKeys →
      change key items = some changed → changed.DistinctKeys)
    (hheader : atHeader change path items = some changed) : changed.DistinctKeys := by
  obtain ⟨last, -, hwithin⟩ := Option.bind_eq_some_iff.1 hheader
  exact h.within (hchange last) hwithin

end Items

/-- A statement keeps the keys of a draft distinct. -/
theorem distinctKeys_step {d next : Draft} {statement : Statement} (h : d.items.DistinctKeys)
    (hstep : d.step statement = some next) : next.items.DistinctKeys := by
  cases statement with
  | entry key value =>
    obtain ⟨items, hitems, rfl⟩ := Option.map_eq_some_iff.1 hstep
    exact h.within (fun _ _ hkeys => hkeys.put) hitems
  | table key =>
    obtain ⟨items, hitems, rfl⟩ := Option.map_eq_some_iff.1 hstep
    exact h.atHeader (fun _ _ _ hkeys => hkeys.openTable) hitems
  | item key =>
    obtain ⟨items, hitems, rfl⟩ := Option.map_eq_some_iff.1 hstep
    exact h.atHeader (fun _ _ _ hkeys => hkeys.openItem) hitems

theorem distinctKeys_foldlM {statements : List Statement} {d last : Draft}
    (h : d.items.DistinctKeys) (hrun : statements.foldlM Draft.step d = some last) :
    last.items.DistinctKeys := by
  induction statements generalizing d with
  | nil =>
    rw [← Option.some.inj hrun]
    exact h
  | cons statement rest ih =>
    rw [List.foldlM_cons] at hrun
    obtain ⟨next, hstep, hrest⟩ := Option.bind_eq_some_iff.1 hrun
    exact ih (distinctKeys_step h hstep) hrest

theorem keys_tableOfItems (items : Items) :
    (tableOfItems items).map Prod.fst = items.map Prod.fst := by
  induction items with
  | nil => rfl
  | cons e rest ih => rw [tableOfItems, List.map_cons, List.map_cons, ih]

/-- The table of a text repeats no key. -/
theorem nodup_keys_of_read? {text : String} {table : Table} (h : read? text = some table) :
    (table.map Prod.fst).Nodup := by
  obtain ⟨statements, -, htable⟩ := Option.bind_eq_some_iff.1 h
  obtain ⟨last, hrun, rfl⟩ := Option.map_eq_some_iff.1 htable
  have hinitial : Draft.initial.items.DistinctKeys := List.nodup_nil
  rw [keys_tableOfItems]
  exact distinctKeys_foldlM hinitial hrun

end Toml

end TreePath
