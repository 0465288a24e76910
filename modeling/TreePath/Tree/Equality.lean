import TreePath.Tree.Basic

/-!
Equality of trees as data: the order of the entries of an object does not count. It is meant for
trees whose objects repeat no key, which are those with `DistinctKeys`.
-/

namespace TreePath

namespace Tree

variable {ν : Type}

/-- No object of the tree repeats a key. -/
inductive DistinctKeys : Tree ν → Prop where
  | null : DistinctKeys .null
  | boolean (b : Bool) : DistinctKeys (.boolean b)
  | number (n : ν) : DistinctKeys (.number n)
  | string (s : String) : DistinctKeys (.string s)
  | array (items : List (Tree ν)) (children : ∀ t ∈ items, DistinctKeys t) :
      DistinctKeys (.array items)
  | object (entries : Entries ν) (keys : (entries.map Prod.fst).Nodup)
      (children : ∀ e ∈ entries, DistinctKeys e.2) : DistinctKeys (.object entries)

theorem distinctKeys_array_iff {items : List (Tree ν)} :
    (array items).DistinctKeys ↔ ∀ t ∈ items, t.DistinctKeys := by
  constructor
  · rintro ⟨⟩
    assumption
  · exact .array items

theorem distinctKeys_object_iff {entries : Entries ν} :
    (object entries).DistinctKeys ↔
      (entries.map Prod.fst).Nodup ∧ ∀ e ∈ entries, e.2.DistinctKeys := by
  constructor
  · rintro ⟨⟩
    exact ⟨‹_›, ‹_›⟩
  · rintro ⟨keys, children⟩
    exact .object entries keys children

mutual

/-- Whether two trees hold equal data, given when two numbers do. Two objects are equal when they
have equally many entries and every entry of the first is matched in the second. -/
def equal (same : ν → ν → Bool) : Tree ν → Tree ν → Bool
  | .null, .null => true
  | .boolean a, .boolean b => a = b
  | .number m, .number n => same m n
  | .string a, .string b => a = b
  | .array items, .array others => equalItems same items others
  | .object entries, .object others =>
    entries.length = others.length && allMatched same entries others
  | _, _ => false

def equalItems (same : ν → ν → Bool) : List (Tree ν) → List (Tree ν) → Bool
  | [], [] => true
  | t :: rest, u :: others => equal same t u && equalItems same rest others
  | _, _ => false

def allMatched (same : ν → ν → Bool) : List (String × Tree ν) → List (String × Tree ν) → Bool
  | [], _ => true
  | (key, t) :: rest, others =>
    (match others.lookup key with
      | some u => equal same t u
      | none => false) && allMatched same rest others

end

end Tree

/-- Equality of document nodes: integers exactly, doubles by value, keys in any order. -/
def Tree.sameData (a b : Node) : Bool := a.equal Number.equal b

end TreePath
