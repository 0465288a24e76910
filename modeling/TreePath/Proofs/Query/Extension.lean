import TreePath.Proofs.Query.Found
import TreePath.Proofs.Query.Reroot
import TreePath.Proofs.Tree.Extension

/-!
Queries of trees that grow. More elements behind those of an array and more entries of an object, at any
depth, break no query that works: what it found is found again, whole values as they were.
-/

namespace TreePath

open Lookup

variable {ν α : Type} {a b : Tree ν} {q r : Query ν} {path : String} {p : Path}

/-- The queries that a tree is asked by: the one that holds it as its root, whatever its kind, and the
one that is made over it. -/
inductive Tree.AskedBy (t : Tree ν) : Query ν → Prop where
  | held : AskedBy t ⟨some t⟩
  | wrapped : AskedBy t (Query.ofTree t).value

theorem Tree.AskedBy.find_value {t : Tree ν} (h : t.AskedBy q) (p : Path) :
    (q.find p).value = t.at? p := by
  cases h with
  | held => exact Query.find_value ⟨some t⟩ p
  | wrapped => exact Query.find_ofOption (some t) p

namespace Query

/-- What the first query finds at the path the second one finds too: a value as it is, and a node with
more to it. -/
structure Keeps [Numeric ν] (q r : Query ν) (path : String) : Prop where
  node : ∀ t, (q.resolve path).Gives (some t) →
    ∃ u, (r.resolve path).Gives (some u) ∧ t.Extends u
  contains : (q.contains path).Gives true → (r.contains path).Gives true
  string : ∀ s, Finds (q.getString path) s → Finds (r.getString path) s
  boolean : ∀ b, Finds (q.getBoolean path) b → Finds (r.getBoolean path) b
  int32 : ∀ n, Finds (q.getInt32 path) n → Finds (r.getInt32 path) n
  int64 : ∀ n, Finds (q.getInt64 path) n → Finds (r.getInt64 path) n
  binary64 : ∀ x, Finds (q.getBinary64 path) x → Finds (r.getBinary64 path) x
  array : ∀ items, (q.getArray path).Gives (some items) →
    ∃ others, (r.getArray path).Gives (some others) ∧ items.length ≤ others.length ∧
      ∀ (i : Nat) (t : Tree ν), items[i]? = some t → ∃ u, others[i]? = some u ∧ t.Extends u
  object : ∀ t, (q.getObject path).Gives (some t) →
    ∃ u, (r.getObject path).Gives (some u) ∧ t.Extends u

section

variable (h : a.Extends b) (first : a.AskedBy q) (second : b.AskedBy r)

include h first second

theorem find_of_extends {t : Tree ν} (ht : (q.find p).value = some t) :
    ∃ u, (r.find p).value = some u ∧ t.Extends u := by
  rw [first.find_value] at ht
  rw [second.find_value]
  exact h.at? ht

/-- A value that is read from one kind of leaf alone is read again, since the leaf is the same. -/
theorem get_finds_of_extends [Nontrivial α] (valid : Path.read path = .ok p)
    {read : Tree ν → Option α} {value : α} {k : Kind}
    (kind : ∀ t, read t = some value → t.kind = k) (childless : k.isContainer = false)
    (found : Finds (q.get read path) value) : Finds (r.get read path) value := by
  obtain ⟨t, ht, hvalue⟩ := (get_finds_iff valid).1 found
  obtain ⟨u, hu, htu⟩ := find_of_extends h first second ht
  have hleaf : t.isContainer = false := by rw [Tree.isContainer, kind t hvalue, childless]
  obtain rfl := htu.eq_of_leaf hleaf
  exact (get_finds_iff valid).2 ⟨t, hu, hvalue⟩

end

/-- A path that is in order and works in a tree works in every extension of the tree, whether the trees
are held or made into queries: the node there is extended, a value is the same, an object is still
there, and an array has its elements where they were. -/
theorem keeps_of_extends [Numeric ν] (h : a.Extends b) (first : a.AskedBy q) (second : b.AskedBy r)
    (valid : Path.read path = .ok p) : q.Keeps r path where
  node t ht := by
    obtain ⟨u, hu, htu⟩ := find_of_extends h first second ((resolve_gives_iff valid).1 ht)
    exact ⟨u, (resolve_gives_iff valid).2 hu, htu⟩
  contains hq := by
    obtain ⟨t, ht⟩ := (contains_gives_true_iff valid).1 hq
    obtain ⟨u, hu, -⟩ := find_of_extends h first second ht
    exact (contains_gives_true_iff valid).2 ⟨u, hu⟩
  string s := by
    refine get_finds_of_extends h first second valid (k := .string) ?_ rfl
    intro t hs
    exact Tree.exists_string?_iff.1 ⟨s, hs⟩
  boolean x := by
    refine get_finds_of_extends h first second valid (k := .boolean) ?_ rfl
    intro t hx
    exact Tree.exists_boolean?_iff.1 ⟨x, hx⟩
  int32 n := by
    refine get_finds_of_extends h first second valid (k := .number) ?_ rfl
    intro t hn
    obtain ⟨m, hm, -⟩ := Option.bind_eq_some_iff.1 hn
    exact Tree.kind_of_int64? hm
  int64 n := by
    refine get_finds_of_extends h first second valid (k := .number) ?_ rfl
    intro t hn
    exact Tree.kind_of_int64? hn
  binary64 x := by
    refine get_finds_of_extends h first second valid (k := .number) ?_ rfl
    intro t hx
    exact Tree.exists_binary64?_iff.1 ⟨x, hx⟩
  array items hitems := by
    rw [getArray_gives_iff valid] at hitems
    obtain ⟨t, ht, hchildren⟩ := Option.bind_eq_some_iff.1 hitems
    obtain ⟨u, hu, htu⟩ := find_of_extends h first second ht
    obtain ⟨others, hothers, hlength, helements⟩ := htu.elements? hchildren
    refine ⟨others, ?_, hlength, helements⟩
    rw [getArray_gives_iff valid]
    exact Option.bind_eq_some_iff.2 ⟨u, hu, hothers⟩
  object t ht := by
    rw [getObject_gives_iff valid, Option.filter_eq_some_iff] at ht
    obtain ⟨u, hu, htu⟩ := find_of_extends h first second ht.1
    refine ⟨u, ?_, htu⟩
    rw [getObject_gives_iff valid, Option.filter_eq_some_iff, Tree.isObject, ← htu.kind]
    exact ⟨hu, ht.2⟩

/-- An array behind an object with one more entry in front, and an element behind its own. -/
theorem keeps_of_extends_nested :
    (Tree.object [("a", .array [.number (.integer 7)])] : Tree Number).Extends
      (.object [("b", .null), ("a", .array [.number (.integer 7), .string "x"])]) ∧
    Path.read "a[0]" = .ok ⟨[⟨"a", [0]⟩], by simp⟩ ∧
    Finds ((⟨some (.object [("a", .array [.number (.integer 7)])])⟩ :
      Query Number).getInt32 "a[0]") 7 ∧
    Finds ((ofTree (.object [("b", .null),
      ("a", .array [.number (.integer 7), .string "x"])] :
        Tree Number)).value.getInt32 "a[0]") 7 := by
  have hextends : (Tree.object [("a", .array [.number (.integer 7)])] : Tree Number).Extends
      (.object [("b", .null), ("a", .array [.number (.integer 7), .string "x"])]) := by
    have hseven : List.Forall₂ Tree.Extends [(.number (.integer 7) : Tree Number)]
        [.number (.integer 7)] := .cons (.leaf _ rfl) .nil
    refine Tree.extends_of_entries ?_
    intro e he
    obtain rfl := List.mem_singleton.1 he
    exact ⟨_, rfl, Tree.extends_append hseven [.string "x"]⟩
  have hread : Path.read "a[0]" = .ok ⟨[⟨"a", [0]⟩], by simp⟩ := rfl
  have hfinds : Finds ((⟨some (.object [("a", .array [.number (.integer 7)])])⟩ :
      Query Number).getInt32 "a[0]") 7 := (get_finds_iff hread).2 ⟨_, rfl, rfl⟩
  exact ⟨hextends, hread, hfinds, (keeps_of_extends hextends .held .wrapped hread).int32 7 hfinds⟩

end Query

end TreePath
