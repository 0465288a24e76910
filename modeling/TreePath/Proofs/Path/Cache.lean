import Mathlib.Data.List.Nodup
import TreePath.Path.Cache
import TreePath.Proofs.Lists

/-!
What a cache holds after any calls: the texts inserted last, in the order in which they came, and no
more of them than the capacity allows. Everything else that is seen of a cache follows from this.
-/

namespace TreePath

namespace PathCache

inductive Call where
  | fetch (text : String)
  | clear
  deriving DecidableEq, Repr

def call (c : PathCache) : Call → PathCache
  | .fetch text => (c.fetch text).cache
  | .clear => c.clear

def run (c : PathCache) (calls : List Call) : PathCache := calls.foldl call c

/-- Whether a fetch puts the text into the cache: there is room for any, the text is in order, and
it is not there yet. -/
def Inserts (c : PathCache) (text : String) : Prop :=
  0 < c.capacity ∧ (Path.read text).isOk ∧ text ∉ c.keys

instance (c : PathCache) (text : String) : Decidable (c.Inserts text) :=
  inferInstanceAs (Decidable (0 < c.capacity ∧ (Path.read text).isOk ∧ text ∉ c.keys))

/-- The texts inserted since the cache was last emptied, after one more call. -/
def inserted (c : PathCache) (texts : List String) : Call → List String
  | .fetch text => if c.Inserts text then texts ++ [text] else texts
  | .clear => []

/-- The texts inserted since the cache was last emptied, after more calls. -/
def insertedAll (c : PathCache) (texts : List String) : List Call → List String
  | [] => texts
  | call :: calls => (c.call call).insertedAll (c.inserted texts call) calls

/-- All that a fetch can do: find the text, refuse it, read it without room for any, or read and
insert it. -/
theorem fetch_cases (c : PathCache) (text : String) :
    (∃ path, c.get? text = some path ∧ c.fetch text = ⟨.ok path, true, c⟩) ∨
    (∃ e, Path.read text = .error e ∧ c.get? text = none ∧
      c.fetch text = ⟨.error e, false, c⟩) ∨
    (∃ path, Path.read text = .ok path ∧ c.get? text = none ∧ c.capacity = 0 ∧
      c.fetch text = ⟨.ok path, false, c⟩) ∨
    (∃ path, ∃ reads : Path.read text = .ok path, c.get? text = none ∧ c.capacity ≠ 0 ∧
      c.fetch text = ⟨.ok path, false, c.insert text path reads⟩) := by
  cases hget : c.get? text with
  | some path => exact .inl ⟨path, rfl, by simp only [fetch, hget]⟩
  | none =>
    unfold fetch
    rw [hget]
    dsimp only
    split
    · next path reads =>
      by_cases hroom : c.capacity = 0
      · exact .inr (.inr (.inl ⟨path, reads, rfl, hroom, by rw [if_pos hroom]⟩))
      · exact .inr (.inr (.inr ⟨path, reads, rfl, hroom, by rw [if_neg hroom]⟩))
    · next e fault => exact .inr (.inl ⟨e, fault, rfl, rfl⟩)

theorem get?_eq_none_iff (c : PathCache) (text : String) :
    c.get? text = none ↔ text ∉ c.keys := by
  rw [get?, Keyed.lookup_eq_none_iff, keys]

theorem mem_entries_of_get? {c : PathCache} {text : String} {path : Path}
    (h : c.get? text = some path) : (text, path) ∈ c.entries :=
  Keyed.mem_of_lookup h

theorem mem_keys_of_get? {c : PathCache} {text : String} {path : Path}
    (h : c.get? text = some path) : text ∈ c.keys :=
  Keyed.mem_keys_of_lookup h

/-- A fetch is a hit exactly where the text is held. -/
theorem hit_iff (c : PathCache) (text : String) : (c.fetch text).hit = true ↔ text ∈ c.keys := by
  rcases c.fetch_cases text with
    ⟨path, hget, h⟩ | ⟨e, -, hget, h⟩ | ⟨path, -, hget, -, h⟩ | ⟨path, reads, hget, -, h⟩
  · simp [h, mem_keys_of_get? hget]
  all_goals simp [h, (c.get?_eq_none_iff text).1 hget]

/-- A text that is found is given its stored path. -/
theorem fetch_of_hit {c : PathCache} {text : String} (hit : (c.fetch text).hit = true) :
    ∃ path, (text, path) ∈ c.entries ∧ c.fetch text = ⟨.ok path, true, c⟩ := by
  rcases c.fetch_cases text with
    ⟨path, hget, h⟩ | ⟨e, -, -, h⟩ | ⟨path, -, -, -, h⟩ | ⟨path, reads, -, -, h⟩
  · exact ⟨path, mem_entries_of_get? hget, h⟩
  all_goals simp [h] at hit

/-- A text fetched from a cache is what the reader makes of it. -/
theorem fetch_path (c : PathCache) (text : String) : (c.fetch text).path = Path.read text := by
  rcases c.fetch_cases text with
    ⟨path, hget, h⟩ | ⟨e, fault, -, h⟩ | ⟨path, reads, -, -, h⟩ | ⟨path, reads, -, -, h⟩
  · rw [h, c.sound (text, path) (mem_entries_of_get? hget)]
  · rw [h, fault]
  · rw [h, reads]
  · rw [h, reads]

/-- Only a text that is inserted changes the cache. -/
theorem fetch_of_not_inserts {c : PathCache} {text : String} (hnot : ¬ c.Inserts text) :
    (c.fetch text).cache = c := by
  rcases c.fetch_cases text with
    ⟨path, -, h⟩ | ⟨e, -, -, h⟩ | ⟨path, -, -, -, h⟩ | ⟨path, reads, hget, hroom, h⟩
  · rw [h]
  · rw [h]
  · rw [h]
  · have hnew := (c.get?_eq_none_iff text).1 hget
    exact absurd ⟨Nat.pos_of_ne_zero hroom, by rw [reads]; rfl, hnew⟩ hnot

/-- A text that is inserted is one that was not held, and is then held as it is read. -/
theorem fetch_of_inserts {c : PathCache} {text : String} (hinserts : c.Inserts text) :
    ∃ path, ∃ reads : Path.read text = .ok path,
      c.fetch text = ⟨.ok path, false, c.insert text path reads⟩ := by
  obtain ⟨hroom, hok, hnew⟩ := hinserts
  rcases c.fetch_cases text with
    ⟨path, hget, -⟩ | ⟨e, fault, -, -⟩ | ⟨path, -, -, hnone, -⟩ | ⟨path, reads, -, -, h⟩
  · exact absurd (mem_keys_of_get? hget) hnew
  · rw [fault] at hok
    contradiction
  · omega
  · exact ⟨path, reads, h⟩

theorem capacity_fetch (c : PathCache) (text : String) :
    (c.fetch text).cache.capacity = c.capacity := by
  by_cases h : c.Inserts text
  · obtain ⟨path, reads, hfetch⟩ := fetch_of_inserts h
    rw [hfetch]
    rfl
  · rw [fetch_of_not_inserts h]

theorem capacity_call (c : PathCache) (call : Call) : (c.call call).capacity = c.capacity := by
  cases call with
  | fetch text => exact c.capacity_fetch text
  | clear => rfl

theorem keys_insert (c : PathCache) (text : String) (path : Path)
    (reads : Path.read text = .ok path) :
    (c.insert text path reads).keys =
      (if c.length < c.capacity then c.keys else c.keys.tail) ++ [text] := by
  simp only [keys, insert, List.map_append, apply_ite, List.map_tail]
  rfl

theorem length_keys (c : PathCache) : c.keys.length = c.length := List.length_map _

/-- An element of the last `n` of a list is one with fewer than `n` behind its last occurrence. -/
theorem mem_last_iff {texts : List String} {text : String} {n : Nat} :
    text ∈ texts.drop (texts.length - min n texts.length) ↔
      ∃ before after, texts = before ++ text :: after ∧ text ∉ after ∧ after.length < n := by
  constructor
  · intro h
    obtain ⟨later, earlier, hsplit, hnew⟩ := List.eq_append_cons_of_mem (List.mem_reverse.2 h)
    have hlast := congrArg List.reverse hsplit
    rw [List.reverse_reverse, List.reverse_append, List.reverse_cons, List.append_assoc,
      List.singleton_append] at hlast
    have hlength := congrArg List.length hlast
    simp only [List.length_drop, List.length_append, List.length_cons] at hlength
    refine ⟨texts.take (texts.length - min n texts.length) ++ earlier.reverse, later.reverse, ?_,
      by simpa using hnew, by omega⟩
    rw [List.append_assoc, ← hlast, List.take_append_drop]
  · rintro ⟨before, after, rfl, -, hafter⟩
    have hfits : (before ++ text :: after).length - min n (before ++ text :: after).length ≤
        before.length := by
      simp only [List.length_append, List.length_cons]
      omega
    rw [List.drop_append_of_le_length hfits]
    simp

/-- The cache holds the latest of the texts, each once and as many as the capacity allows. -/
structure Follows (c : PathCache) (texts : List String) : Prop where
  keys : c.keys = texts.drop (texts.length - min c.capacity texts.length)
  nodup : c.keys.Nodup

theorem follows_empty (capacity : Nat) : (empty capacity).Follows [] where
  keys := by simp [PathCache.keys, empty]
  nodup := List.nodup_nil

namespace Follows

variable {c : PathCache} {texts : List String}

theorem length (h : c.Follows texts) : c.length = min c.capacity texts.length := by
  rw [← length_keys, h.keys, List.length_drop]
  omega

/-- A text that is not held takes its place behind the others. The oldest of the others is left out
exactly where there are as many as the capacity allows. -/
theorem insert (h : c.Follows texts) {text : String} {path : Path}
    (reads : Path.read text = .ok path) (hroom : 0 < c.capacity) (hnew : text ∉ c.keys) :
    (c.insert text path reads).Follows (texts ++ [text]) where
  keys := by
    have hlength := h.length
    have hcapacity : (c.insert text path reads).capacity = c.capacity := rfl
    rw [keys_insert, hcapacity, List.length_append, List.length_singleton, h.keys]
    split
    · next hlt =>
      rw [show texts.length - min c.capacity texts.length = 0 by omega,
        show texts.length + 1 - min c.capacity (texts.length + 1) = 0 by omega]
      rfl
    · next hfull =>
      rw [List.tail_drop, show texts.length + 1 - min c.capacity (texts.length + 1) =
        texts.length - min c.capacity texts.length + 1 by omega,
        List.drop_append_of_le_length (by omega)]
  nodup := by
    have hkept : (if c.length < c.capacity then c.keys else c.keys.tail).Sublist c.keys := by
      split
      · exact List.Sublist.refl c.keys
      · exact List.tail_sublist c.keys
    rw [keys_insert, ← List.concat_eq_append]
    exact (h.nodup.sublist hkept).concat fun hmem => hnew (hkept.subset hmem)

theorem fetch (h : c.Follows texts) (text : String) :
    (c.fetch text).cache.Follows (if c.Inserts text then texts ++ [text] else texts) := by
  split
  · next hinserts =>
    obtain ⟨path, reads, hfetch⟩ := fetch_of_inserts hinserts
    rw [hfetch]
    exact h.insert reads hinserts.1 hinserts.2.2
  · next hnot =>
    rw [fetch_of_not_inserts hnot]
    exact h

theorem call (h : c.Follows texts) (call : Call) :
    (c.call call).Follows (c.inserted texts call) := by
  cases call with
  | fetch text => exact h.fetch text
  | clear => exact follows_empty c.capacity

theorem run (h : c.Follows texts) (calls : List Call) :
    (c.run calls).Follows (c.insertedAll texts calls) := by
  induction calls generalizing c texts with
  | nil => exact h
  | cons call calls ih => exact ih (h.call call)

end Follows

theorem capacity_run (c : PathCache) (calls : List Call) :
    (c.run calls).capacity = c.capacity := by
  induction calls generalizing c with
  | nil => rfl
  | cons call calls ih => exact (ih (c.call call)).trans (c.capacity_call call)

/-- After any calls the cache holds, in order, the last of the texts that were inserted since it was
emptied, as many as the capacity allows and none of them twice. A text that is found is given its
stored path, and only a text that is inserted, neither found nor faulty, changes the cache. A text
is found exactly where fewer texts than the capacity allows were inserted behind its last
insertion. -/
theorem run_keeps_latest (capacity : Nat) (calls : List Call) :
    let c := (empty capacity).run calls
    let texts := (empty capacity).insertedAll [] calls
    c.keys = texts.drop (texts.length - min capacity texts.length) ∧
    c.length ≤ capacity ∧ c.keys.Nodup ∧
    (∀ text, (c.fetch text).hit = true →
      ∃ path, (text, path) ∈ c.entries ∧ c.fetch text = ⟨.ok path, true, c⟩) ∧
    (∀ text, ¬ c.Inserts text → (c.fetch text).cache = c) ∧
    (∀ text, (c.fetch text).hit = true ↔
      ∃ before after, texts = before ++ text :: after ∧ text ∉ after ∧
        after.length < capacity) := by
  intro c texts
  have h : c.Follows texts := (follows_empty capacity).run calls
  have hcapacity : c.capacity = capacity := (empty capacity).capacity_run calls
  have hkeys := h.keys
  have hlength := h.length
  rw [hcapacity] at hkeys hlength
  refine ⟨hkeys, by omega, h.nodup, fun text => fetch_of_hit, fun text => fetch_of_not_inserts, ?_⟩
  intro text
  rw [hit_iff, hkeys, mem_last_iff]

/-- A text that was asked for again is still the oldest, and makes room for the next. -/
theorem run_keeps_latest_oldest_first :
    (empty 2).insertedAll [] [.fetch "a", .fetch "b", .fetch "a", .fetch "c[", .fetch "c"] =
      ["a", "b", "c"] ∧
    ((empty 2).run [.fetch "a", .fetch "b", .fetch "a", .fetch "c[", .fetch "c"]).keys =
      ["b", "c"] := by
  have htexts : (empty 2).insertedAll []
      [.fetch "a", .fetch "b", .fetch "a", .fetch "c[", .fetch "c"] = ["a", "b", "c"] := by
    decide +kernel
  refine ⟨htexts, ?_⟩
  have h := run_keeps_latest 2 [.fetch "a", .fetch "b", .fetch "a", .fetch "c[", .fetch "c"]
  rw [h.1, htexts]
  rfl

end PathCache

end TreePath
