import TreePath.Event
import TreePath.Json.Reader
import TreePath.Path.Cache

/-!
Queries: typed questions about the nodes of a tree, each with a fallback.

Every question goes through `resolve`. A missing property, a null on the way, a node of another
kind or a position out of range all give the fallback; only a faulty path is an error, and that is
seen before the tree is looked at.
-/

namespace TreePath

/-- The answer to a question: only the text of the path can be at fault. -/
structure Reply (α : Type) where
  result : Except PathError α
  events : List Event
  /-- Whether the path came from the cache. -/
  hit : Bool
  /-- The cache after the question. -/
  cache : Option PathCache

/-- A question, waiting for the cache it may use. -/
abbrev Lookup (α : Type) := Option PathCache → Reply α

namespace Reply

variable {α β : Type}

def map (f : α → β) (r : Reply α) : Reply β :=
  ⟨r.result.map f, r.events, r.hit, r.cache⟩

end Reply

namespace Lookup

variable {α β : Type}

def pure (value : α) : Lookup α := fun cache => ⟨.ok value, [], false, cache⟩

def map (f : α → β) (l : Lookup α) : Lookup β := fun cache => (l cache).map f

def path (text : String) : Lookup Path
  | none => ⟨Path.read text, [], false, none⟩
  | some cache =>
    let fetched := cache.fetch text
    ⟨fetched.path, [], fetched.hit, some fetched.cache⟩

/-- Reads a path and goes on from it; a faulty text ends the question. -/
def along (text : String) (go : Path → Logged α) : Lookup α := fun cache =>
  let read := path text cache
  match read.result with
  | .ok p =>
    let found := go p
    ⟨.ok found.value, found.events, read.hit, read.cache⟩
  | .error e => ⟨.error e, [], read.hit, read.cache⟩

end Lookup

/-- Where paths start. A query without a root is neutral: every question falls back. -/
structure Query (ν : Type) where
  root : Option (Tree ν)

namespace Query

variable {ν α : Type}

def neutral : Query ν := ⟨none⟩

def isNeutral (q : Query ν) : Bool := q.root.isNone

/-- The query that starts at a node. Only objects and arrays can be roots. -/
def ofOption : Option (Tree ν) → Logged (Query ν)
  | none => .quiet neutral
  | some t => if t.isContainer then .quiet ⟨some t⟩ else ⟨neutral, [.notARoot t.kind]⟩

def ofTree (t : Tree ν) : Logged (Query ν) := ofOption (some t)

def find (q : Query ν) (path : Path) : Logged (Option (Tree ν)) :=
  match q.root with
  | none => .quiet none
  | some t =>
    match t.walk path with
    | .ok node => .quiet (some node)
    | .error miss => ⟨none, [.missed miss]⟩

def resolve (q : Query ν) (path : String) : Lookup (Option (Tree ν)) := Lookup.along path q.find

/-- Whether a path leads to a node; a null is a node. -/
def contains (q : Query ν) (path : String) : Lookup Bool := (q.resolve path).map Option.isSome

/-- What is read from the node at a path, or the fallback. -/
def get (read : Tree ν → Option α) (q : Query ν) (path : String) (fallback : α) : Lookup α :=
  (q.resolve path).map fun node => (node.bind read).getD fallback

def getString (q : Query ν) (path : String) (fallback : String) : Lookup String :=
  q.get Tree.string? path fallback

def getBoolean (q : Query ν) (path : String) (fallback : Bool) : Lookup Bool :=
  q.get Tree.boolean? path fallback

def getInt64 [Numeric ν] (q : Query ν) (path : String) (fallback : Int64) : Lookup Int64 :=
  q.get Tree.int64? path fallback

def getInt32 [Numeric ν] (q : Query ν) (path : String) (fallback : Int32) : Lookup Int32 :=
  q.get (fun t => t.int64?.bind fun n => int32? n.toInt) path fallback

def getBinary64 [Numeric ν] (q : Query ν) (path : String) (fallback : Binary64) :
    Lookup Binary64 :=
  q.get Tree.binary64? path fallback

/-- The children of the array at a path; an empty array has some, namely none. -/
def getArray (q : Query ν) (path : String) : Lookup (Option (List (Tree ν))) :=
  (q.resolve path).map (·.bind Tree.elements?)

def getObject (q : Query ν) (path : String) : Lookup (Option (Tree ν)) :=
  (q.resolve path).map (·.filter Tree.isObject)

def rootArray (q : Query ν) : Option (List (Tree ν)) := q.root.bind Tree.elements?

end Query

/-!
Documents: trees that are held as a whole. A document is a query whose root may be any node, while
the queries made from it start at objects and arrays only.
-/

/-- A document; without a root it is empty. -/
structure Document extends Query Number

namespace Document

def empty : Document := ⟨.neutral⟩

def ofNode (root : Node) : Document := ⟨⟨some root⟩⟩

def ofValue (v : Json.Value) : Document := ofNode v.toNode

def read? (text : String) : Option Document := (Json.read? text).map ofValue

/-- The document of a JSON text, or an empty one; says whether the text was read. -/
def readOrEmpty (text : String) : Logged (Bool × Document) :=
  match read? text with
  | some d => .quiet (true, d)
  | none => ⟨(false, empty), [.notADocument]⟩

def query (d : Document) : Logged (Query Number) := Query.ofOption d.root

end Document

end TreePath
