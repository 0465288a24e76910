import TreePath.Json.Number
import TreePath.Query.Basic

/-!
Scripts and sessions. A script asks questions one after the other with one cache, among them nested
scripts that start at a node found on the way; a session runs scripts on several trees that share the
cache.
-/

namespace TreePath

inductive Question where
  | node
  | contains
  | string (fallback : String)
  | boolean (fallback : Bool)
  | int32 (fallback : Int32)
  | int64 (fallback : Int64)
  | binary64 (fallback : Binary64)
  | array
  | object

inductive Target where
  | node (path : String)
  | object (path : String)
  | element (path : String) (index : UInt64)
  | root
  | rootElement (index : UInt64)
  | nothing

inductive Step where
  | ask (question : Question) (path : String)
  /-- Reads a path without following it. -/
  | path (text : String)
  | root
  | rootArray
  /-- Empties the cache. -/
  | clear
  | nested (target : Target) (steps : List Step)

inductive Answer (ν : Type) where
  | node (found : Option (Tree ν))
  | string (s : String)
  | boolean (b : Bool)
  | int32 (n : Int32)
  | int64 (n : Int64)
  | binary64 (x : Binary64)
  | array (found : Option (List (Tree ν)))
  | path (p : Path)
  | query (q : Query ν)
  | cleared

/-- The reply to a step, and the records of the steps nested in it. The cache in the reply is the
one after the nested steps. -/
inductive Record (ν : Type) where
  | intro (reply : Reply (Answer ν)) (nested : List (Record ν))

namespace Record

variable {ν : Type}

def reply : Record ν → Reply (Answer ν)
  | .intro reply _ => reply

def nested : Record ν → List (Record ν)
  | .intro _ nested => nested

end Record

namespace Query

variable {ν : Type} [Numeric ν]

def answer (q : Query ν) (path : String) : Question → Lookup (Answer ν)
  | .node => (q.resolve path).map .node
  | .contains => (q.contains path).map .boolean
  | .string fallback => (q.getString path fallback).map .string
  | .boolean fallback => (q.getBoolean path fallback).map .boolean
  | .int32 fallback => (q.getInt32 path fallback).map .int32
  | .int64 fallback => (q.getInt64 path fallback).map .int64
  | .binary64 fallback => (q.getBinary64 path fallback).map .binary64
  | .array => (q.getArray path).map .array
  | .object => (q.getObject path).map .node

omit [Numeric ν] in
def target (q : Query ν) : Target → Lookup (Option (Tree ν))
  | .node path => q.resolve path
  | .object path => q.getObject path
  | .element path index => (q.getArray path).map (·.bind (·[index.toNat]?))
  | .root => .pure q.root
  | .rootElement index => .pure (q.rootArray.bind (·[index.toNat]?))
  | .nothing => .pure none

mutual

/-- Runs a step. A nested script runs only where its target's path is in order. -/
def runStep (q : Query ν) (cache : Option PathCache) : Step → Record ν
  | .ask question path => .intro (q.answer path question cache) []
  | .path text => .intro (Lookup.map .path (Lookup.path text) cache) []
  | .root => .intro (Lookup.pure (.node q.root) cache) []
  | .rootArray => .intro (Lookup.pure (.array q.rootArray) cache) []
  | .clear => .intro (Lookup.pure .cleared (cache.map PathCache.clear)) []
  | .nested target steps =>
    let start := q.target target cache
    match start.result with
    | .error e => .intro ⟨.error e, start.events, start.hit, start.cache⟩ []
    | .ok node =>
      let next := Query.ofOption node
      let rest := runSteps next.value start.cache steps
      .intro ⟨.ok (.query next.value), start.events ++ next.events, start.hit, rest.2⟩ rest.1

def runSteps (q : Query ν) (cache : Option PathCache) :
    List Step → List (Record ν) × Option PathCache
  | [] => ([], cache)
  | step :: steps =>
    let record := runStep q cache step
    let rest := runSteps q record.reply.cache steps
    (record :: rest.1, rest.2)

end

end Query

/-!
Sessions: scripts on several trees that share one cache.
-/

inductive Turn where
  | document (query : Query Number) (steps : List Step)
  | value (query : Query Json.Number) (steps : List Step)

inductive Transcript where
  | document (records : List (Record Number))
  | value (records : List (Record Json.Number))

namespace Turn

def run (cache : Option PathCache) : Turn → Transcript × Option PathCache
  | .document query steps =>
    let done := query.runSteps cache steps
    (.document done.1, done.2)
  | .value query steps =>
    let done := query.runSteps cache steps
    (.value done.1, done.2)

/-- Runs scripts in order, each with the cache that the one before it left. -/
def runAll (cache : Option PathCache) : List Turn → List Transcript × Option PathCache
  | [] => ([], cache)
  | turn :: rest =>
    let first := turn.run cache
    let others := runAll first.2 rest
    (first.1 :: others.1, others.2)

end Turn

end TreePath
