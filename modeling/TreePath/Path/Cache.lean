import TreePath.Path.Reader

/-!
A bounded cache of paths that were read. The oldest text makes room for a new one; a text that is
found keeps its age, and a faulty text leaves no trace.
-/

namespace TreePath

/-- Texts and the paths they read as, oldest first. -/
structure PathCache where
  capacity : Nat
  entries : List (String × Path)
  /-- Every text is kept with its own path. -/
  sound : ∀ e ∈ entries, Path.read e.1 = .ok e.2

namespace PathCache

def defaultCapacity : Nat := 256

def empty (capacity : Nat) : PathCache := ⟨capacity, [], by simp⟩

instance : Inhabited PathCache := ⟨empty defaultCapacity⟩

def length (c : PathCache) : Nat := c.entries.length

def keys (c : PathCache) : List String := c.entries.map Prod.fst

def clear (c : PathCache) : PathCache := empty c.capacity

def get? (c : PathCache) (text : String) : Option Path := c.entries.lookup text

/-- Adds a text behind all others. In a full cache the oldest makes room for it. -/
def insert (c : PathCache) (text : String) (path : Path) (reads : Path.read text = .ok path) :
    PathCache where
  capacity := c.capacity
  entries := (if c.length < c.capacity then c.entries else c.entries.tail) ++ [(text, path)]
  sound e he := by
    rcases List.mem_append.1 he with h | h
    · split at h
      · exact c.sound e h
      · exact c.sound e (List.mem_of_mem_tail h)
    · rw [List.mem_singleton.1 h]; exact reads

/-- A text that was asked for: what it reads as, whether it was held, and the cache from now on. -/
structure Fetched where
  path : Except PathError Path
  hit : Bool
  cache : PathCache

/-- Looks a text up, reading it where it is not held, and keeping it where there is room for any. -/
def fetch (c : PathCache) (text : String) : Fetched :=
  match c.get? text with
  | some path => ⟨.ok path, true, c⟩
  | none =>
    match h : Path.read text with
    | .ok path => ⟨.ok path, false, if c.capacity = 0 then c else c.insert text path h⟩
    | .error e => ⟨.error e, false, c⟩

end PathCache

end TreePath
