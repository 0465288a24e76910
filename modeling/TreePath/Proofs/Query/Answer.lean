import TreePath.Proofs.Path.Cache
import TreePath.Proofs.Tree.Walk
import TreePath.Query.Session

/-!
What an answer depends on. The cache never changes what a text reads as, so an answer is a function
of the path that was read and of the node that it leads to.
-/

namespace TreePath

namespace Lookup

variable {α β : Type}

theorem path_result (text : String) (cache : Option PathCache) :
    (path text cache).result = Path.read text := by
  cases cache with
  | none => rfl
  | some c => exact c.fetch_path text

/-- A question about a path fails exactly as its text does, and goes on from the path otherwise. -/
theorem along_result (text : String) (go : Path → Logged α) (cache : Option PathCache) :
    (along text go cache).result = (Path.read text).map fun p => (go p).value := by
  have h := path_result text cache
  unfold along
  cases hr : (path text cache).result with
  | error e => simp [← h, hr, Except.map]
  | ok p => simp [← h, hr, Except.map]

/-- What is logged is what is logged on the way along the path; a faulty text is silent. -/
theorem along_events (text : String) (go : Path → Logged α) (cache : Option PathCache) :
    (along text go cache).events =
      match Path.read text with
      | .ok p => (go p).events
      | .error _ => [] := by
  simp only [along, path_result]
  cases Path.read text <;> rfl

@[simp] theorem map_result (f : α → β) (l : Lookup α) (cache : Option PathCache) :
    (l.map f cache).result = (l cache).result.map f := rfl

end Lookup

namespace Query

variable {ν α : Type}

/-- The node that a query finds is the one that the walk from its root arrives at. -/
theorem find_value (q : Query ν) (p : Path) : (q.find p).value = q.root.bind (Tree.at? p) := by
  unfold find Tree.at?
  cases q.root with
  | none => rfl
  | some t => cases h : t.walk p <;> simp [h, Logged.quiet, Except.toOption]

/-- A node becomes the root of a query exactly when it is an object or an array. -/
theorem ofOption_root (node : Option (Tree ν)) :
    (ofOption node).value.root = node.filter Tree.isContainer := by
  cases node with
  | none => rfl
  | some t => cases h : t.isContainer <;> simp [ofOption, h, Logged.quiet, neutral, Option.filter]

/-- No path is looked for where its text is at fault, and every other path is. -/
theorem resolve_result (q : Query ν) (path : String) (cache : Option PathCache) :
    (q.resolve path cache).result = (Path.read path).map fun p => (q.find p).value :=
  Lookup.along_result path q.find cache

/-- What is read at a path that is in order is read from the node found, or is the fallback. -/
theorem get_of_read (read : Tree ν → Option α) (q : Query ν) {path : String} {p : Path}
    (h : Path.read path = .ok p) (fallback : α) (cache : Option PathCache) :
    (q.get read path fallback cache).result = .ok (((q.find p).value.bind read).getD fallback) := by
  rw [get, Lookup.map_result, resolve_result, h]
  rfl

end Query

namespace Question

variable {ν : Type} [Numeric ν]

def of (node : Option (Tree ν)) : Question → Answer ν
  | .node => .node node
  | .contains => .boolean node.isSome
  | .string fallback => .string ((node.bind Tree.string?).getD fallback)
  | .boolean fallback => .boolean ((node.bind Tree.boolean?).getD fallback)
  | .int32 fallback =>
    .int32 ((node.bind fun t => t.int64?.bind fun n => int32? n.toInt).getD fallback)
  | .int64 fallback => .int64 ((node.bind Tree.int64?).getD fallback)
  | .binary64 fallback => .binary64 ((node.bind Tree.binary64?).getD fallback)
  | .array => .array (node.bind Tree.elements?)
  | .object => .node (node.filter Tree.isObject)

omit [Numeric ν] in
def fallback : Question → Answer ν
  | .node => .node none
  | .contains => .boolean false
  | .string fallback => .string fallback
  | .boolean fallback => .boolean fallback
  | .int32 fallback => .int32 fallback
  | .int64 fallback => .int64 fallback
  | .binary64 fallback => .binary64 fallback
  | .array => .array none
  | .object => .node none

@[simp] theorem of_none (question : Question) :
    question.of (none : Option (Tree ν)) = question.fallback := by
  cases question <;> rfl

end Question

namespace Query

variable {ν : Type} [Numeric ν]

/-- An answer is a function of the path read and of the node that it leads to. -/
theorem answer_result (q : Query ν) (path : String) (question : Question)
    (cache : Option PathCache) :
    (q.answer path question cache).result =
      (Path.read path).map fun p => question.of (q.find p).value := by
  cases question <;>
    simp only [answer, contains, getString, getBoolean, getInt32, getInt64, getBinary64, get,
      getArray, getObject, Lookup.map_result, resolve_result] <;>
    cases Path.read path <;> rfl

/-- What a question logs does not depend on what is asked of the node. -/
theorem answer_events (q : Query ν) (path : String) (question : Question)
    (cache : Option PathCache) :
    (q.answer path question cache).events =
      match Path.read path with
      | .ok p => (q.find p).events
      | .error _ => [] := by
  have hresolve := Lookup.along_events path q.find cache
  cases question <;> exact hresolve

theorem answer_of_read (q : Query ν) {path : String} {p : Path} (h : Path.read path = .ok p)
    (question : Question) (cache : Option PathCache) :
    (q.answer path question cache).result = .ok (question.of (q.find p).value) := by
  rw [answer_result, h]
  rfl

end Query

end TreePath
