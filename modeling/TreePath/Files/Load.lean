import TreePath.Gzip
import TreePath.Query.Basic

/-!
Loading text and documents from files and from standard input. A file is unpacked because of its
name, standard input because of its first bytes.
-/

namespace TreePath

inductive FileState where
  | missing
  | directory
  | file (bytes : ByteArray)

namespace FileState

/-- The text of a file; there is none in bytes that are no UTF-8. -/
def text? : FileState → Option String
  | .file bytes => String.fromUTF8? bytes
  | _ => none

end FileState

namespace FileName

def parts : List Char → List (List Char)
  | [] => [[]]
  | c :: cs =>
    if c = '/' then [] :: parts cs
    else match parts cs with
      | [] => [[c]]
      | part :: rest => (c :: part) :: rest

/-- The last part that names something; slashes and single dots at the end do not count. -/
def last? (name : String) : Option (List Char) :=
  ((parts name.toList).filter fun part => part ≠ [] ∧ part ≠ ['.']).getLast?.filter
    fun part => part ≠ ['.', '.']

/-- What follows the last dot of the last part. A dot in front of everything starts no extension. -/
def extension? (name : String) : Option (List Char) :=
  (last? name).bind fun part =>
    let (reversed, before) := part.reverse.span fun c => c ≠ '.'
    if before.length ≤ 1 then none else some reversed.reverse

def isGzip (name : String) : Bool := extension? name = some ['g', 'z']

end FileName

inductive LoadError where
  /-- The file is not there, or its bytes are no text. -/
  | unreadable (name : String)
  /-- The packed file is not there. -/
  | unopenable (name : String)
  | corruptFile
  | corruptInput
  | notText
  /-- The text of the file, or of standard input, is no JSON. -/
  | notJson (name : Option String)
  deriving DecidableEq, Repr

namespace LoadError

/-- The messages of the error and of its causes, outermost first. -/
def chain : LoadError → List String
  | .unreadable name => ["Failed to read file " ++ name]
  | .unopenable name => ["Failed to open gzipped file " ++ name]
  | .corruptFile => ["Failed to decompress gzipped file - file may be corrupted"]
  | .corruptInput => ["Failed to decompress gzipped input"]
  | .notText => ["Invalid UTF-8 in input"]
  | .notJson name =>
    ["Failed to parse JSON from " ++ name.getD "stdin", "Failed to parse JSON"]

end LoadError

def packedText? (bytes : ByteArray) : Option String :=
  (Gzip.unpack? bytes).bind fun content => String.fromUTF8? content

def orError {α ε : Type} (e : ε) : Option α → Except ε α
  | some a => .ok a
  | none => .error e

def loadFile (name : String) (state : FileState) : Except LoadError String :=
  if FileName.isGzip name then
    match state with
    | .missing => .error (.unopenable name)
    | .directory => .error .corruptFile
    | .file bytes => orError .corruptFile (packedText? bytes)
  else orError (.unreadable name) state.text?

def loadInput (bytes : ByteArray) : Except LoadError String :=
  if Gzip.hasMagic bytes then orError .corruptInput (packedText? bytes)
  else orError .notText (String.fromUTF8? bytes)

def loadedDocument (name : Option String) (text : Except LoadError String) :
    Except LoadError Document :=
  text.bind fun text => orError (.notJson name) (Document.read? text)

end TreePath
