import TreePath.Tree.Basic

/-!
What the library logs. An event is data; its level, message and fields are functions of it.
-/

namespace TreePath

inductive Level where
  | trace
  | debug
  | warn
  deriving DecidableEq, Repr

def Level.name : Level → String
  | .trace => "trace"
  | .debug => "debug"
  | .warn => "warn"

inductive Event where
  /-- A path did not lead to a node. -/
  | missed (miss : Miss)
  /-- A node without children was given as the root of a query. -/
  | notARoot (kind : Kind)
  /-- A text that is no JSON was given as a document. -/
  | notADocument
  /-- A settings file was skipped. -/
  | settingsIgnored (path : String)
  deriving DecidableEq, Repr

namespace Event

def level : Event → Level
  | .missed _ => .trace
  | .notARoot _ | .notADocument => .debug
  | .settingsIgnored _ => .warn

def message : Event → String
  | .missed (.nullRoot _) => "root is null"
  | .missed (.property ..) => "property lookup did not resolve"
  | .missed (.index ..) => "index step did not resolve"
  | .notARoot _ => "node cannot act as a root; using a neutral root"
  | .notADocument => "document construction failed"
  | .settingsIgnored _ => "ignoring invalid config file"

def fields : Event → List (String × String)
  | .missed (.nullRoot path) => [("path", path.text)]
  | .missed (.property name kind) => [("property", name), ("kind", kind.name)]
  | .missed (.index property index kind) =>
    [("property", property), ("index", toString index.toNat), ("kind", kind.name)]
  | .notARoot kind => [("kind", kind.name)]
  | .notADocument => []
  | .settingsIgnored path => [("path", path)]

end Event

/-- A value, with the events of its making. -/
structure Logged (α : Type) where
  value : α
  events : List Event
  deriving Repr

namespace Logged

def quiet {α : Type} (value : α) : Logged α := ⟨value, []⟩

end Logged

end TreePath
