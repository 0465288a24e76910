import TreePath.Json.Writer
import TreePath.Number.Integer
import TreePath.Query.Basic

/-!
One line of output for the node at a path, or for the default where there is no such node.
-/

namespace TreePath

inductive OutputKind where
  | raw
  | string
  | integer
  | boolean
  | array
  | object
  deriving DecidableEq, Repr

/-- Why nothing is printed. A default is looked at before the path is. -/
inductive RenderError where
  | integerDefault (cause : IntegerError)
  | booleanDefault
  | path (cause : PathError)
  deriving DecidableEq, Repr

namespace RenderError

def chain : RenderError → List String
  | .integerDefault cause => ["--default must be a 32-bit integer", cause.message]
  | .booleanDefault =>
    ["--default must be true or false", "provided string was not `true` or `false`"]
  | .path cause => [cause.message]

end RenderError

def readBoolean? (text : String) : Option Bool :=
  if text = "true" then some true else if text = "false" then some false else none

/-- The default as a 32-bit integer; zero where none is given. -/
def integerDefault : Option String → Except RenderError Int32
  | none => .ok 0
  | some text => (readInt32 text).mapError .integerDefault

/-- The default as a truth value; false where none is given. -/
def booleanDefault : Option String → Except RenderError Bool
  | none => .ok false
  | some text =>
    match readBoolean? text with
    | some b => .ok b
    | none => .error .booleanDefault

/-- A node as JSON text, or the default as it is, or `null`. -/
def jsonLine (style : Json.Style) (default? : Option String) : Option Json.Value → String
  | some node => Json.write style node
  | none => default?.getD "null"

def render (q : Query Json.Number) (path : String) (kind : OutputKind) (default? : Option String)
    (style : Json.Style) (cache : Option PathCache) : Except RenderError String :=
  match kind with
  | .raw => ((q.resolve path).map (jsonLine style default?) cache).result.mapError .path
  | .string => (q.getString path (default?.getD "") cache).result.mapError .path
  | .integer =>
    match integerDefault default? with
    | .ok fallback =>
      ((q.getInt32 path fallback).map (fun n => toString n.toInt) cache).result.mapError .path
    | .error e => .error e
  | .boolean =>
    match booleanDefault default? with
    | .ok fallback =>
      ((q.getBoolean path fallback).map (fun b => if b then "true" else "false")
        cache).result.mapError .path
    | .error e => .error e
  | .array =>
    ((q.getArray path).map (fun items => jsonLine style default? (items.map .array))
      cache).result.mapError .path
  | .object => ((q.getObject path).map (jsonLine style default?) cache).result.mapError .path

end TreePath
