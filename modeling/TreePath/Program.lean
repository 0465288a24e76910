import TreePath.CommandLine
import TreePath.Files.Load
import TreePath.Settings

/-!
The program as a function of its surroundings: what it prints, what it reports, and its exit code.
-/

namespace TreePath

/-- What a run depends on besides its arguments. -/
structure Surroundings where
  /-- The home directory. -/
  home : Option String
  /-- What stands under a name. -/
  file : String → FileState
  input : ByteArray

inductive Failure where
  | load (cause : LoadError)
  | json
  | query (path : String) (cause : RenderError)
  deriving DecidableEq, Repr

def indentLines (indent : List Char) (text : String) : List Char :=
  text.toList.flatMap fun c => if c = '\n' then '\n' :: indent else [c]

namespace Failure

/-- The messages of the failure and of its causes, outermost first. -/
def chain : Failure → List String
  | .load cause => cause.chain
  | .json => ["Failed to parse JSON"]
  | .query path cause => ("Failed to query '" ++ path ++ "'") :: cause.chain

/-- The causes below a message; they are numbered where there are several. -/
def causes : List String → String
  | [] => ""
  | [cause] =>
    "\n\nCaused by:\n    " ++ String.ofList (indentLines (List.replicate 4 ' ') cause)
  | several =>
    "\n\nCaused by:" ++ String.join (several.zipIdx.map fun e =>
      "\n    " ++ toString e.2 ++ ": " ++ String.ofList (indentLines (List.replicate 7 ' ') e.1))

def report (f : Failure) : String :=
  match f.chain with
  | [] => "Error: "
  | message :: rest => "Error: " ++ message ++ causes rest

end Failure

structure Outcome where
  exitCode : Nat
  /-- What is written to standard output. -/
  output : String
  /-- What is written to standard error. -/
  report : String
  deriving DecidableEq, Repr

namespace Program

def versionText : String := "jsonnav 0.1.0\n"

def helpText : String :=
  "Query JSON documents by dot/bracket path\n\n" ++
  "Usage: jsonnav [OPTIONS] <PATH> [FILE]\n\n" ++
  "Arguments:\n" ++
  "  <PATH>  Path to look up, e.g. staff.groups[0].team_leader.name\n" ++
  "  [FILE]  JSON file to read (omit to read from stdin); .gz files are decompressed\n\n" ++
  "Options:\n" ++
  "  -a, --as <KIND>          How to interpret the located value [default: raw]\n" ++
  "                           [possible values: raw, string, int, bool, array, object]\n" ++
  "  -d, --default <DEFAULT>  Printed when a path does not resolve to the requested kind\n" ++
  "      --compact            Print JSON results on a single line\n" ++
  "  -h, --help               Print help\n" ++
  "  -V, --version            Print version\n"

def loadText (s : Surroundings) (file : Option String) : Except LoadError String :=
  match file with
  | some name => loadFile name (s.file name)
  | none => loadInput s.input

/-- The style of JSON results: indented only where the settings and the command line agree. -/
def style (settings : Settings) (i : Invocation) : Json.Style :=
  if settings.prettyOutput && !i.compact then .indented else .compact

def line (s : Surroundings) (settings : Settings) (i : Invocation) : Except Failure String :=
  match loadText s i.file with
  | .error e => .error (.load e)
  | .ok text =>
    match Json.read? text with
    | none => .error .json
    | some value =>
      let cache := PathCache.empty settings.cacheCapacity.toNat
      (render (Query.ofTree value).value i.path i.kind i.fallback (style settings i)
        (some cache)).mapError (.query i.path)

/-- The names of the files that a run may look at. -/
def fileNames (home : Option String) (args : List String) : List String :=
  match CommandLine.read args with
  | .ok (.print i) => (Settings.path? home).toList ++ i.file.toList
  | _ => []

def readsInput (args : List String) : Bool :=
  match CommandLine.read args with
  | .ok (.print i) => i.file.isNone
  | _ => false

def run (s : Surroundings) (args : List String) : Outcome :=
  match CommandLine.read args with
  | .error e => ⟨2, "", "error: " ++ e.message ++ "\n"⟩
  | .ok .version => ⟨0, versionText, ""⟩
  | .ok .help => ⟨0, helpText, ""⟩
  | .ok (.print i) =>
    match line s (Settings.loadFrom s.home s.file).value i with
    | .ok text => ⟨0, text ++ "\n", ""⟩
    | .error f => ⟨1, "", f.report ++ "\n"⟩

end Program

end TreePath
