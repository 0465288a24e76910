import TreePath.Number.Basic
import TreePath.Path.Basic

/-!
Trees of values: the data that paths are asked of.

A tree is generic in its numbers, so that the tree of a document and the tree of a text share their
shape, their look-ups and the theorems about them. The entries of an object keep their order. A walk
follows a path from property to property and says, where it does not arrive, why, as a `Miss`.
-/

namespace TreePath

inductive Kind where
  | object
  | array
  | string
  | number
  | boolean
  | null
  deriving DecidableEq, Repr

namespace Kind

def name : Kind → String
  | .object => "object"
  | .array => "array"
  | .string => "string"
  | .number => "number"
  | .boolean => "boolean"
  | .null => "null"

def isContainer : Kind → Bool
  | .object | .array => true
  | _ => false

end Kind

/-- A tree whose numbers are of type `ν`. -/
inductive Tree (ν : Type) where
  | null
  | boolean (b : Bool)
  | number (n : ν)
  | string (s : String)
  | array (items : List (Tree ν))
  | object (entries : List (String × Tree ν))
  deriving Repr

abbrev Entries (ν : Type) := List (String × Tree ν)

/-- Sets the value of a key: a key that is there keeps its place, a new one goes last. -/
def Entries.insert {ν : Type} (key : String) (value : Tree ν) : Entries ν → Entries ν
  | [] => [(key, value)]
  | (k, v) :: rest => if k = key then (k, value) :: rest else (k, v) :: Entries.insert key value rest

namespace Tree

variable {ν μ : Type}

instance : Inhabited (Tree ν) := ⟨.null⟩

def kind : Tree ν → Kind
  | .null => .null
  | .boolean _ => .boolean
  | .number _ => .number
  | .string _ => .string
  | .array _ => .array
  | .object _ => .object

def property? (key : String) : Tree ν → Option (Tree ν)
  | .object entries => entries.lookup key
  | _ => none

def elements? : Tree ν → Option (List (Tree ν))
  | .array items => some items
  | _ => none

def element? (index : UInt64) (t : Tree ν) : Option (Tree ν) :=
  t.elements?.bind (·[index.toNat]?)

def string? : Tree ν → Option String
  | .string s => some s
  | _ => none

def boolean? : Tree ν → Option Bool
  | .boolean b => some b
  | _ => none

def number? : Tree ν → Option ν
  | .number n => some n
  | _ => none

/-- The signed 64-bit integer that a node equals, if it is such a number. -/
def int64? [Numeric ν] (t : Tree ν) : Option Int64 := t.number?.bind Numeric.toInt64?

def binary64? [Numeric ν] (t : Tree ν) : Option Binary64 := t.number?.map Numeric.toBinary64

def isObject (t : Tree ν) : Bool := t.kind = .object

def isArray (t : Tree ν) : Bool := t.kind = .array

def isNull (t : Tree ν) : Bool := t.kind = .null

def isContainer (t : Tree ν) : Bool := t.kind.isContainer

theorem isContainer_iff {t : Tree ν} :
    t.isContainer = true ↔ t.kind = .object ∨ t.kind = .array := by
  cases t <;> simp [isContainer, kind, Kind.isContainer]

mutual

def map (f : ν → μ) : Tree ν → Tree μ
  | .null => .null
  | .boolean b => .boolean b
  | .number n => .number (f n)
  | .string s => .string s
  | .array items => .array (mapItems f items)
  | .object entries => .object (mapEntries f entries)

def mapItems (f : ν → μ) : List (Tree ν) → List (Tree μ)
  | [] => []
  | t :: rest => t.map f :: mapItems f rest

def mapEntries (f : ν → μ) : List (String × Tree ν) → List (String × Tree μ)
  | [] => []
  | (key, t) :: rest => (key, t.map f) :: mapEntries f rest

end

@[simp] theorem mapItems_eq_map (f : ν → μ) (items : List (Tree ν)) :
    mapItems f items = items.map (map f) := by
  induction items with
  | nil => rfl
  | cons t rest ih => simp [mapItems, ih]

@[simp] theorem mapEntries_eq_map (f : ν → μ) (entries : Entries ν) :
    mapEntries f entries = entries.map fun e => (e.1, e.2.map f) := by
  induction entries with
  | nil => rfl
  | cons e rest ih => simp [mapEntries, ih]

@[simp] theorem kind_map (f : ν → μ) (t : Tree ν) : (t.map f).kind = t.kind := by
  cases t <;> rfl

/-- Induction over a tree: a property of all children passes to their parent. -/
theorem induction {P : Tree ν → Prop} (null : P .null) (boolean : ∀ b, P (.boolean b))
    (number : ∀ n, P (.number n)) (string : ∀ s, P (.string s))
    (array : ∀ items, (∀ t ∈ items, P t) → P (.array items))
    (object : ∀ entries : Entries ν, (∀ e ∈ entries, P e.2) → P (.object entries)) (t : Tree ν) :
    P t :=
  Tree.rec (motive_1 := P) (motive_2 := fun items => ∀ t ∈ items, P t)
    (motive_3 := fun entries => ∀ e ∈ entries, P e.2) (motive_4 := fun e => P e.2)
    null boolean number string array object
    (fun _ h => absurd h List.not_mem_nil)
    (fun _ _ head tail _ h => (List.mem_cons.1 h).elim (· ▸ head) (tail _))
    (fun _ h => absurd h List.not_mem_nil)
    (fun _ _ head tail _ h => (List.mem_cons.1 h).elim (· ▸ head) (tail _))
    (fun _ _ h => h) t

end Tree

abbrev Node := Tree Number

/-!
Walking a tree along a path.
-/

inductive Miss where
  /-- A null root counts as absent. -/
  | nullRoot (path : Path)
  /-- A node of the given kind has no such property. -/
  | property (name : String) (kind : Kind)
  /-- A node of the given kind, reached from the property, has no child at the position. -/
  | index (property : String) (index : UInt64) (kind : Kind)
  deriving DecidableEq, Repr

namespace Tree

variable {ν : Type}

/-- Looks positions up one after the other, below a property. -/
def walkIndices (property : String) : List UInt64 → Tree ν → Except Miss (Tree ν)
  | [], t => .ok t
  | index :: rest, t =>
    match t.element? index with
    | some child => walkIndices property rest child
    | none => .error (.index property index t.kind)

def walkSegment (segment : Segment) (t : Tree ν) : Except Miss (Tree ν) :=
  match t.property? segment.property with
  | some child => walkIndices segment.property segment.indices child
  | none => .error (.property segment.property t.kind)

def walkSegments : List Segment → Tree ν → Except Miss (Tree ν)
  | [], t => .ok t
  | segment :: rest, t =>
    match t.walkSegment segment with
    | .ok child => walkSegments rest child
    | .error miss => .error miss

def walk (path : Path) (t : Tree ν) : Except Miss (Tree ν) :=
  if t.isNull then .error (.nullRoot path) else t.walkSegments path.segments

end Tree

end TreePath
