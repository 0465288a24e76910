import Mathlib.Logic.Nontrivial.Basic
import TreePath.Json.Number
import TreePath.Proofs.Number.Whole
import TreePath.Proofs.Query.Answer

/-!
What is found. A question with a fallback gives every fallback back, or it finds a value, which is then
the answer for every fallback. What is found tells the kind of the node at the path: no node is taken
for one of another kind, and a null is found by no question but whether there is a node.
-/

namespace TreePath

namespace Lookup

variable {α : Type}

/-- The value is the answer, whatever the cache. -/
def Gives (l : Lookup α) (value : α) : Prop := ∀ cache, (l cache).result = .ok value

/-- The value is the answer, whatever the fallback. -/
def Finds (ask : α → Lookup α) (value : α) : Prop := ∀ fallback, (ask fallback).Gives value

/-- Every fallback is given back. -/
def FallsBack (ask : α → Lookup α) : Prop := ∀ fallback, (ask fallback).Gives fallback

/-- Either every fallback is given back, or one value is found. -/
def Settled (ask : α → Lookup α) : Prop := FallsBack ask ∨ ∃ value, Finds ask value

end Lookup

open Lookup

instance nontrivialString : Nontrivial String := ⟨"", "a", by decide⟩

instance nontrivialInt32 : Nontrivial Int32 := ⟨0, 1, by decide⟩

instance nontrivialInt64 : Nontrivial Int64 := ⟨0, 1, by decide⟩

instance nontrivialBinary64 : Nontrivial Binary64 := ⟨.zero, .nan, by decide⟩

/-- Of two fallbacks one differs from the value, so that a value for both is no fallback. -/
theorem forall_getD_eq_iff {α : Type} [Nontrivial α] {found : Option α} {value : α} :
    (∀ fallback, found.getD fallback = value) ↔ found = some value := by
  constructor
  · intro h
    cases found with
    | none =>
      obtain ⟨other, hother⟩ := exists_ne value
      exact absurd (h other) hother
    | some x => exact congrArg some (h value)
  · rintro rfl fallback
    rfl

theorem forall_getD_eq_self_iff {α : Type} [Nontrivial α] {found : Option α} :
    (∀ fallback, found.getD fallback = fallback) ↔ found = none := by
  constructor
  · intro h
    cases found with
    | none => rfl
    | some x =>
      obtain ⟨other, hother⟩ := exists_ne x
      exact absurd (h other).symm hother
  · rintro rfl fallback
    rfl

namespace Tree

variable {ν : Type} {t : Tree ν}

theorem exists_string?_iff : (∃ s, t.string? = some s) ↔ t.kind = .string := by
  cases t <;> simp [string?, kind]

theorem exists_boolean?_iff : (∃ b, t.boolean? = some b) ↔ t.kind = .boolean := by
  cases t <;> simp [boolean?, kind]

theorem exists_elements?_iff : (∃ items, t.elements? = some items) ↔ t.kind = .array := by
  cases t <;> simp [elements?, kind]

theorem exists_binary64?_iff [Numeric ν] : (∃ x, t.binary64? = some x) ↔ t.kind = .number := by
  cases t <;> simp [binary64?, number?, kind]

theorem eq_null_of_kind (h : t.kind = .null) : t = .null := by
  cases t with
  | null => rfl
  | _ => contradiction

/-- Only a number is read as a word. -/
theorem kind_of_int64? [Numeric ν] {n : Int64} (h : t.int64? = some n) : t.kind = .number := by
  cases t with
  | number m => rfl
  | _ => contradiction

end Tree

namespace Query

variable {ν α : Type} {q : Query ν} {path : String} {p : Path}

section Valid

variable (valid : Path.read path = .ok p)

include valid

theorem resolve_gives_iff {node : Option (Tree ν)} :
    (q.resolve path).Gives node ↔ (q.find p).value = node := by
  simp [Gives, resolve_result, valid, Except.map]

theorem contains_gives_true_iff :
    (q.contains path).Gives true ↔ ∃ t, (q.find p).value = some t := by
  simp [Gives, contains, resolve_result, valid, Except.map, Option.isSome_iff_exists]

theorem getArray_gives_iff {items : Option (List (Tree ν))} :
    (q.getArray path).Gives items ↔ (q.find p).value.bind Tree.elements? = items := by
  simp [Gives, getArray, resolve_result, valid, Except.map]

theorem getObject_gives_iff {found : Option (Tree ν)} :
    (q.getObject path).Gives found ↔ (q.find p).value.filter Tree.isObject = found := by
  simp [Gives, getObject, resolve_result, valid, Except.map]

variable {read : Tree ν → Option α}

theorem get_gives_iff {fallback value : α} : (q.get read path fallback).Gives value ↔
    ((q.find p).value.bind read).getD fallback = value := by
  simp [Gives, get_of_read read q valid]

/-- What is found is what is read from the node at the path. -/
theorem get_finds_iff [Nontrivial α] {value : α} :
    Finds (q.get read path) value ↔ ∃ t, (q.find p).value = some t ∧ read t = some value := by
  simp only [Finds, get_gives_iff valid, forall_getD_eq_iff, Option.bind_eq_some_iff]

theorem exists_get_finds_iff [Nontrivial α] : (∃ value, Finds (q.get read path) value) ↔
    ∃ t, (q.find p).value = some t ∧ ∃ value, read t = some value := by
  simp only [get_finds_iff valid]
  rw [exists_comm]
  simp only [exists_and_left]

theorem get_fallsBack_iff [Nontrivial α] :
    FallsBack (q.get read path) ↔ (q.find p).value.bind read = none := by
  simp only [FallsBack, get_gives_iff valid, forall_getD_eq_self_iff]

theorem settled_get [Nontrivial α] : Settled (q.get read path) := by
  cases h : (q.find p).value.bind read with
  | none => exact .inl ((get_fallsBack_iff valid).2 h)
  | some value =>
    exact .inr ⟨value, (get_finds_iff valid).2 (Option.bind_eq_some_iff.1 h)⟩

end Valid

variable [Numeric ν]

/-- A question for the kind of node finds something at the path. There is none for a null. -/
def FoundAs (q : Query ν) (path : String) : Kind → Prop
  | .string => ∃ s, Finds (q.getString path) s
  | .boolean => ∃ b, Finds (q.getBoolean path) b
  | .number => (∃ n, Finds (q.getInt32 path) n) ∨ (∃ n, Finds (q.getInt64 path) n) ∨
      ∃ x, Finds (q.getBinary64 path) x
  | .array => ∃ items, (q.getArray path).Gives (some items)
  | .object => ∃ t, (q.getObject path).Gives (some t)
  | .null => False

section Valid

variable (valid : Path.read path = .ok p)

include valid

/-- A short word is found where the long one is found and equals it. -/
theorem getInt32_finds_iff {n : Int32} : Finds (q.getInt32 path) n ↔
    ∃ m, Finds (q.getInt64 path) m ∧ n.toInt = m.toInt := by
  have hshort : Finds (q.getInt32 path) n ↔ _ := get_finds_iff valid
  have hlong (m : Int64) : Finds (q.getInt64 path) m ↔ _ := get_finds_iff valid
  simp only [hshort, hlong, Option.bind_eq_some_iff, int32?_eq_some_iff]
  constructor
  · rintro ⟨t, ht, m, hm, hn⟩
    exact ⟨m, ⟨t, ht, hm⟩, hn⟩
  · rintro ⟨m, ⟨t, ht, hm⟩, hn⟩
    exact ⟨t, ht, m, hm, hn⟩

/-- Every number is found as a double, whether it is a word or not. -/
theorem exists_getBinary64_finds_iff : (∃ x, Finds (q.getBinary64 path) x) ↔
    ∃ t, (q.find p).value = some t ∧ t.kind = .number := by
  simp only [← Tree.exists_binary64?_iff]
  exact exists_get_finds_iff valid

theorem kind_of_getInt64_finds {n : Int64} (h : Finds (q.getInt64 path) n) :
    ∃ t, (q.find p).value = some t ∧ t.kind = .number := by
  obtain ⟨t, ht, hn⟩ := (get_finds_iff valid).1 h
  exact ⟨t, ht, Tree.kind_of_int64? hn⟩

/-- What is found tells the kind of the node that the path leads to. -/
theorem foundAs_iff {k : Kind} : q.FoundAs path k ↔
    k ≠ .null ∧ ∃ t, (q.find p).value = some t ∧ t.kind = k := by
  cases k with
  | null => simp [FoundAs]
  | string =>
    simp only [← Tree.exists_string?_iff, ne_eq, reduceCtorEq, not_false_eq_true, true_and]
    exact exists_get_finds_iff valid
  | boolean =>
    simp only [← Tree.exists_boolean?_iff, ne_eq, reduceCtorEq, not_false_eq_true, true_and]
    exact exists_get_finds_iff valid
  | number =>
    rw [FoundAs, exists_getBinary64_finds_iff valid]
    constructor
    · rintro (⟨n, hn⟩ | ⟨n, hn⟩ | h)
      · obtain ⟨m, hm, -⟩ := (getInt32_finds_iff valid).1 hn
        exact ⟨by decide, kind_of_getInt64_finds valid hm⟩
      · exact ⟨by decide, kind_of_getInt64_finds valid hn⟩
      · exact ⟨by decide, h⟩
    · intro h
      exact .inr (.inr h.2)
  | array =>
    simp only [FoundAs, getArray_gives_iff valid, Option.bind_eq_some_iff,
      ← Tree.exists_elements?_iff]
    rw [exists_comm]
    simp
  | object =>
    simp [FoundAs, getObject_gives_iff valid, Option.filter_eq_some_iff, Tree.isObject]

/-- A short word is found exactly where a long one in its range is. -/
theorem exists_getInt32_finds_iff : (∃ n, Finds (q.getInt32 path) n) ↔
    ∃ m, Finds (q.getInt64 path) m ∧ -2 ^ 31 ≤ m.toInt ∧ m.toInt ≤ 2 ^ 31 - 1 := by
  have hrange (m : Int64) : (∃ n : Int32, n.toInt = m.toInt) ↔
      -2 ^ 31 ≤ m.toInt ∧ m.toInt ≤ 2 ^ 31 - 1 := by
    constructor
    · rintro ⟨n, hn⟩
      have hge := Int32.le_toInt n
      have hlt := Int32.toInt_lt n
      omega
    · intro h
      exact ⟨Int32.ofInt m.toInt, Int32.toInt_ofInt_of_le h.1 (by omega)⟩
  simp only [getInt32_finds_iff valid, ← hrange]
  rw [exists_comm]
  simp only [exists_and_left]

/-- A null is the one node that is there and that no question finds anything at. -/
theorem resolve_gives_null_iff : (q.resolve path).Gives (some .null) ↔
    (q.contains path).Gives true ∧ ∀ k, ¬ q.FoundAs path k := by
  simp only [contains_gives_true_iff valid, resolve_gives_iff valid, foundAs_iff valid]
  constructor
  · intro hnull
    refine ⟨⟨_, hnull⟩, ?_⟩
    rintro k ⟨hk, t, ht, rfl⟩
    obtain rfl := Option.some.inj (ht.symm.trans hnull)
    exact hk rfl
  · rintro ⟨⟨t, ht⟩, hnone⟩
    have hkind : t.kind = .null := by
      by_contra hkind
      exact hnone t.kind ⟨hkind, t, ht, rfl⟩
    rw [ht, Tree.eq_null_of_kind hkind]

end Valid

/-- At the path no node is taken for one of another kind. -/
structure Uncoerced (q : Query ν) (path : String) : Prop where
  string : Settled (q.getString path)
  boolean : Settled (q.getBoolean path)
  int32 : Settled (q.getInt32 path)
  int64 : Settled (q.getInt64 path)
  binary64 : Settled (q.getBinary64 path)
  /-- The questions for two kinds of node do not both find something. -/
  one_kind : ∀ k l, q.FoundAs path k → q.FoundAs path l → k = l
  /-- Something is found for the kind of the node at the path and for no other. -/
  kind_iff : ∀ k, q.FoundAs path k ↔
    k ≠ .null ∧ ∃ t, (q.resolve path).Gives (some t) ∧ t.kind = k
  int32_value : ∀ n, Finds (q.getInt32 path) n →
    ∃ m, Finds (q.getInt64 path) m ∧ n.toInt = m.toInt
  int32_iff : (∃ n, Finds (q.getInt32 path) n) ↔
    ∃ m, Finds (q.getInt64 path) m ∧ -2 ^ 31 ≤ m.toInt ∧ m.toInt ≤ 2 ^ 31 - 1
  int64_value : ∀ m, Finds (q.getInt64 path) m → ∃ x, Finds (q.getBinary64 path) x
  null_iff : (q.resolve path).Gives (some .null) ↔
    (q.contains path).Gives true ∧ ∀ k, ¬ q.FoundAs path k
  number : ∀ n, (q.resolve path).Gives (some (.number n)) → ∃ x, Finds (q.getBinary64 path) x

/-- Whatever a query starts at and whatever its numbers are, no question about a path that is in order
takes a node for one of another kind. -/
theorem uncoerced_of_read (q : Query ν) (valid : Path.read path = .ok p) : q.Uncoerced path where
  string := settled_get valid
  boolean := settled_get valid
  int32 := settled_get valid
  int64 := settled_get valid
  binary64 := settled_get valid
  one_kind k l hk hl := by
    obtain ⟨-, t, ht, rfl⟩ := (foundAs_iff valid).1 hk
    obtain ⟨-, u, hu, rfl⟩ := (foundAs_iff valid).1 hl
    rw [Option.some.inj (ht.symm.trans hu)]
  kind_iff k := by
    simp only [resolve_gives_iff valid]
    exact foundAs_iff valid
  int32_value n := (getInt32_finds_iff valid).1
  int32_iff := exists_getInt32_finds_iff valid
  int64_value m hm := (exists_getBinary64_finds_iff valid).2 (kind_of_getInt64_finds valid hm)
  null_iff := resolve_gives_null_iff valid
  number n hn := by
    rw [resolve_gives_iff valid] at hn
    exact (exists_getBinary64_finds_iff valid).2 ⟨_, hn, rfl⟩

/-- One more than the greatest short word is no short word, and the greatest unsigned one is no word at
all, but both are found as numbers. -/
theorem uncoerced_of_read_beyond_words :
    Path.read "a" = .ok ⟨[⟨"a", []⟩], by simp⟩ ∧
    ((⟨some (.object [("a", .number (.integer 2147483648))])⟩ : Query Number).Uncoerced "a" ∧
      FallsBack ((⟨some (.object [("a", .number (.integer 2147483648))])⟩ :
        Query Number).getInt32 "a")) ∧
    (⟨some (.object [("a", .number (.integer 0xFFFFFFFFFFFFFFFF (by decide)))])⟩ :
        Query Json.Number).Uncoerced "a" ∧
      FallsBack ((⟨some (.object [("a", .number (.integer 0xFFFFFFFFFFFFFFFF (by decide)))])⟩ :
        Query Json.Number).getInt64 "a") := by
  have hread : Path.read "a" = .ok ⟨[⟨"a", []⟩], by simp⟩ := rfl
  exact ⟨hread, ⟨uncoerced_of_read _ hread, (get_fallsBack_iff hread).2 rfl⟩,
    uncoerced_of_read _ hread, (get_fallsBack_iff hread).2 rfl⟩

end Query

end TreePath
