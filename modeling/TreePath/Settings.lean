import TreePath.Event
import TreePath.Files.Load
import TreePath.Path.Cache
import TreePath.Toml.Quoted
import TreePath.Toml.Reader

/-!
Settings of the program. Each has a default, and a file that cannot be used counts as if it were
not there.
-/

namespace TreePath

structure Settings where
  /-- How many paths the cache holds. -/
  cacheCapacity : UInt64
  logFilter : String
  /-- Whether JSON results are indented. -/
  prettyOutput : Bool
  deriving DecidableEq, Repr

namespace Settings

def default : Settings := ⟨PathCache.defaultCapacity.toUInt64, "warn", true⟩

instance : Inhabited Settings := ⟨default⟩

/-- A field of a table: its default where it is absent, and nothing where it has another type. -/
def field? {α : Type} (table : Toml.Table) (key : String) (fallback : α)
    (read : Toml.Value → Option α) : Option α :=
  match table.lookup key with
  | none => some fallback
  | some value => read value

def capacity? : Toml.Value → Option UInt64
  | .integer n => if 0 ≤ n.toInt then some n.toUInt64 else none
  | _ => none

def string? : Toml.Value → Option String
  | .string s => some s
  | _ => none

def boolean? : Toml.Value → Option Bool
  | .boolean b => some b
  | _ => none

/-- The settings in a table. Other keys are of no account. -/
def ofTable? (table : Toml.Table) : Option Settings := do
  let cacheCapacity ← field? table "path_cache_capacity" default.cacheCapacity capacity?
  let logFilter ← field? table "log_filter" default.logFilter string?
  let prettyOutput ← field? table "pretty_output" default.prettyOutput boolean?
  some ⟨cacheCapacity, logFilter, prettyOutput⟩

def read? (text : String) : Option Settings := (Toml.read? text).bind ofTable?

/-- The settings as TOML text, one field a line. An integer of TOML has 64 bits with its sign, so
that a larger capacity cannot be written. -/
def write? (s : Settings) : Option String :=
  if s.cacheCapacity.toNat < 0x8000000000000000 then
    some ("path_cache_capacity = " ++ toString s.cacheCapacity.toNat ++ "\n" ++
      "log_filter = " ++ String.ofList (Toml.quotedChars s.logFilter.toList) ++ "\n" ++
      "pretty_output = " ++ (if s.prettyOutput then "true" else "false") ++ "\n")
  else none

/-- The settings in a file. A file that is missing or holds no text is passed over in silence, one
that holds no settings with a warning. -/
def load (path : String) (state : FileState) : Logged Settings :=
  match state.text? with
  | none => .quiet default
  | some text =>
    match read? text with
    | some s => .quiet s
    | none => ⟨default, [.settingsIgnored path]⟩

def join (directory name : String) : String :=
  if directory.toList.getLast? = some '/' then directory ++ name else directory ++ "/" ++ name

def path? (home : Option String) : Option String :=
  match home with
  | none => none
  | some home => if home.isEmpty then none else some (join home ".config/jsonnav/config.toml")

def loadFrom (home : Option String) (state : String → FileState) : Logged Settings :=
  match path? home with
  | none => .quiet default
  | some path => load path (state path)

end Settings

end TreePath
