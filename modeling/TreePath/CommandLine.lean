import TreePath.Render

/-!
The command line: a path, a file, and options in any order. Arguments are taken from left to right,
and the first one that is out of order, or that asks for the version, decides.
-/

namespace TreePath

structure Invocation where
  path : String
  /-- Standard input is read where there is no file. -/
  file : Option String
  kind : OutputKind
  fallback : Option String
  compact : Bool
  deriving DecidableEq, Repr

inductive Request where
  | print (invocation : Invocation)
  | version
  | help
  deriving DecidableEq, Repr

inductive ValueOption where
  | kind
  | fallback
  deriving DecidableEq, Repr

namespace ValueOption

def name : ValueOption → String
  | .kind => "--as"
  | .fallback => "--default"

end ValueOption

inductive UsageError where
  | unknownOption (text : String)
  | missingValue (option : ValueOption)
  | invalidValue (option : ValueOption) (value : String)
  | unwantedValue (option : String)
  | repeated (option : String)
  | extraArgument (text : String)
  | missingPath
  deriving DecidableEq, Repr

namespace UsageError

def message : UsageError → String
  | .unknownOption text => "unexpected argument '" ++ text ++ "' found"
  | .missingValue option => "a value is required for '" ++ option.name ++ "' but none was supplied"
  | .invalidValue option value => "invalid value '" ++ value ++ "' for '" ++ option.name ++ "'"
  | .unwantedValue option => "no value is allowed for '" ++ option ++ "'"
  | .repeated option => "the argument '" ++ option ++ "' cannot be used multiple times"
  | .extraArgument text => "unexpected argument '" ++ text ++ "' found"
  | .missingPath => "the required argument '<PATH>' was not provided"

end UsageError

def OutputKind.ofName? (name : String) : Option OutputKind :=
  [("raw", .raw), ("string", .string), ("int", .integer), ("bool", .boolean), ("array", .array),
    ("object", .object)].lookup name

namespace CommandLine

structure Taken where
  kind : Option OutputKind
  fallback : Option String
  compact : Bool
  path : Option String
  file : Option String

namespace Taken

def nothing : Taken := ⟨none, none, false, none, none⟩

/-- Takes an argument that is no option: the path first, then the file. -/
def positional (t : Taken) (text : String) : Except UsageError Taken :=
  match t.path, t.file with
  | none, _ => .ok { t with path := some text }
  | some _, none => .ok { t with file := some text }
  | some _, some _ => .error (.extraArgument text)

def setCompact (t : Taken) : Except UsageError Taken :=
  if t.compact then .error (.repeated "--compact") else .ok { t with compact := true }

def setValue (t : Taken) (option : ValueOption) (value : String) : Except UsageError Taken :=
  match option with
  | .kind =>
    match OutputKind.ofName? value with
    | none => .error (.invalidValue .kind value)
    | some kind =>
      if t.kind.isSome then .error (.repeated ValueOption.kind.name)
      else .ok { t with kind := some kind }
  | .fallback =>
    if t.fallback.isSome then .error (.repeated ValueOption.fallback.name)
    else .ok { t with fallback := some value }

def finish (t : Taken) : Except UsageError Request :=
  match t.path with
  | none => .error .missingPath
  | some path =>
    .ok (.print ⟨path, t.file, t.kind.getD .raw, t.fallback, t.compact⟩)

end Taken

inductive Reading where
  | taken (t : Taken)
  /-- The next argument is the value of an option. -/
  | awaiting (t : Taken) (option : ValueOption)
  | request (r : Request)

/-- Whether an argument looks like an option. A lone dash does not. -/
def looksLikeOption (text : String) : Bool :=
  match text.toList with
  | '-' :: _ :: _ => true
  | _ => false

/-- Takes an argument with two dashes in front; a value may follow an equals sign. -/
def long (t : Taken) (text : String) (name : List Char) (value : Option String) :
    Except UsageError Reading :=
  let withValue (option : ValueOption) : Except UsageError Reading :=
    match value with
    | some value => (t.setValue option value).map .taken
    | none => .ok (.awaiting t option)
  let withoutValue (option : String) (reading : Except UsageError Reading) :
      Except UsageError Reading :=
    if value.isSome then .error (.unwantedValue option) else reading
  match String.ofList name with
  | "as" => withValue .kind
  | "default" => withValue .fallback
  | "compact" => withoutValue "--compact" (t.setCompact.map .taken)
  | "version" => withoutValue "--version" (.ok (.request .version))
  | "help" => withoutValue "--help" (.ok (.request .help))
  | _ => .error (.unknownOption text)

/-- Takes the letters behind a single dash. What follows the letter of an option with a value is
the value, with or without an equals sign. -/
def short (t : Taken) : List Char → Except UsageError Reading
  | [] => .ok (.taken t)
  | 'V' :: _ => .ok (.request .version)
  | 'h' :: _ => .ok (.request .help)
  | 'a' :: rest => attached .kind rest
  | 'd' :: rest => attached .fallback rest
  | c :: _ => .error (.unknownOption (String.ofList ['-', c]))
where
  attached (option : ValueOption) : List Char → Except UsageError Reading
    | [] => .ok (.awaiting t option)
    | '=' :: value => (t.setValue option (String.ofList value)).map .taken
    | value => (t.setValue option (String.ofList value)).map .taken

def option (t : Taken) (text : String) : Except UsageError Reading :=
  match text.toList with
  | '-' :: '-' :: rest =>
    let (name, value) := rest.span fun c => c ≠ '='
    long t text name (if value = [] then none else some (String.ofList value.tail))
  | '-' :: letters => short t letters
  | _ => .error (.unknownOption text)

/-- Takes arguments behind a double dash, none of which is an option. -/
def positionals (t : Taken) : List String → Except UsageError Request
  | [] => t.finish
  | text :: rest =>
    match t.positional text with
    | .ok t => positionals t rest
    | .error e => .error e

def arguments (t : Taken) : List String → Except UsageError Request
  | [] => t.finish
  | text :: rest =>
    if text = "--" then positionals t rest
    else if looksLikeOption text then
      match option t text with
      | .error e => .error e
      | .ok (.request r) => .ok r
      | .ok (.taken t) => arguments t rest
      | .ok (.awaiting t option) =>
        match rest with
        | [] => .error (.missingValue option)
        | value :: rest =>
          if looksLikeOption value then .error (.missingValue option)
          else
            match t.setValue option value with
            | .ok t => arguments t rest
            | .error e => .error e
    else
      match t.positional text with
      | .ok t => arguments t rest
      | .error e => .error e

def read (args : List String) : Except UsageError Request := arguments .nothing args

end CommandLine

end TreePath
