import TreePath.Toml.Value

/-!
Tables built from statements. A key is defined once; a table that a header or a value defined is
closed to dotted keys, and one that dotted keys made is closed to headers.
-/

namespace TreePath

namespace Toml

inductive Origin where
  /-- By a header of its own. -/
  | header
  /-- By a longer header that passes through it. -/
  | implied
  /-- By a dotted key. -/
  | dotted
  deriving DecidableEq, Repr

inductive Item where
  | value (v : Value)
  | table (origin : Origin) (entries : List (String × Item))
  /-- An array of tables, latest first. -/
  | tables (tables : List (List (String × Item)))

abbrev Items := List (String × Item)

namespace Items

def replace (key : String) (item : Item) (items : Items) : Items :=
  items.map fun e => if e.1 = key then (key, item) else e

/-- Adds an entry at a dotted key. `takes` says whether the table at hand may take entries. -/
def put (value : Value) (takes : Bool) : List String → Items → Option Items
  | [], _ => none
  | [key], items =>
    if takes && (items.lookup key).isNone then some (items ++ [(key, .value value)]) else none
  | key :: rest, items =>
    match items.lookup key with
    | none => (put value true rest []).map fun inner => items ++ [(key, .table .dotted inner)]
    | some (.table origin inner) =>
      if origin = .header then none
      else (put value (origin = .dotted) rest inner).map fun inner =>
        replace key (.table origin inner) items
    | some (.tables (latest :: earlier)) =>
      (put value false rest latest).map fun inner => replace key (.tables (inner :: earlier)) items
    | some _ => none

/-- Changes the table that a header leads to, making the tables on the way that are missing. -/
def within (change : Items → Option Items) : List String → Items → Option Items
  | [], items => change items
  | key :: rest, items =>
    match items.lookup key with
    | none => (within change rest []).map fun inner => items ++ [(key, .table .implied inner)]
    | some (.table origin inner) =>
      (within change rest inner).map fun inner => replace key (.table origin inner) items
    | some (.tables (latest :: earlier)) =>
      (within change rest latest).map fun inner => replace key (.tables (inner :: earlier)) items
    | some _ => none

/-- Opens a table by its own header, which may complete an implied one. -/
def openTable (key : String) (items : Items) : Option Items :=
  match items.lookup key with
  | none => some (items ++ [(key, .table .header [])])
  | some (.table .implied inner) => some (replace key (.table .header inner) items)
  | some _ => none

def openItem (key : String) (items : Items) : Option Items :=
  match items.lookup key with
  | none => some (items ++ [(key, .tables [[]])])
  | some (.tables tables) => some (replace key (.tables ([] :: tables)) items)
  | some _ => none

/-- Applies a change to the last part of a header's key, in the table that the others lead to. -/
def atHeader (change : String → Items → Option Items) (key : List String) (items : Items) :
    Option Items :=
  key.getLast?.bind fun last => within (change last) key.dropLast items

end Items

/-- A document under construction: its entries, and the header that entries go under. -/
structure Draft where
  items : Items
  header : List String

namespace Draft

def initial : Draft := ⟨[], []⟩

def step (d : Draft) : Statement → Option Draft
  | .entry key value =>
    (Items.within (Items.put value true key) d.header d.items).map fun items => ⟨items, d.header⟩
  | .table key => (Items.atHeader Items.openTable key d.items).map fun items => ⟨items, key⟩
  | .item key => (Items.atHeader Items.openItem key d.items).map fun items => ⟨items, key⟩

end Draft

mutual

def Item.toValue : Item → Value
  | .value v => v
  | .table _ items => .table (tableOfItems items)
  | .tables tables => .array (valuesOfTables tables).reverse

def tableOfItems : List (String × Item) → List (String × Value)
  | [] => []
  | (key, item) :: rest => (key, item.toValue) :: tableOfItems rest

def valuesOfTables : List (List (String × Item)) → List Value
  | [] => []
  | items :: rest => .table (tableOfItems items) :: valuesOfTables rest

end

def Table.ofStatements? (statements : List Statement) : Option Table :=
  (statements.foldlM Draft.step Draft.initial).map fun d => tableOfItems d.items

def Table.ofEntries? (entries : List (List String × Value)) : Option Table :=
  (entries.foldlM (fun items e => Items.put e.2 true e.1 items) []).map tableOfItems

end Toml

end TreePath
