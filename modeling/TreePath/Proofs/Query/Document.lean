import TreePath.Proofs.Json.Number
import TreePath.Proofs.Query.Reroot
import TreePath.Proofs.Tree.Walk
import TreePath.Query.Basic

/-!
Documents, their views, and the values that they are made of: all are answered alike.
-/

namespace TreePath

/-!
Views of a document. A document keeps a root of any kind, and the queries made from it start at objects
and arrays only. They are answered alike all the same, since a path has at least one segment and no
segment leads on from a node that is no object.
-/

namespace Document

variable {d : Document} {q : Query Number}

/-- The queries that ask a document from its root: the one that it gives, the one that starts again
at its root, and the one over the node that it holds. -/
inductive View (d : Document) : Query Number → Prop where
  | query : View d d.query.value
  | again {q : Query Number} (steps : List Step) (cache : Option PathCache)
      (step : (d.runStep cache (.nested .root steps)).reply.result = .ok (.query q)) : View d q
  | wrapped {root : Node} (held : d.root = some root) : View d (Query.ofTree root).value

theorem View.eq_ofOption (view : d.View q) : q = (Query.ofOption d.root).value := by
  cases view with
  | query => rfl
  | again steps cache step => exact (Answer.query.inj (Except.ok.inj step)).symm
  | wrapped held => rw [held, Query.ofTree]

/-- A document finds what the walk from its root arrives at, and so does a view of it. -/
theorem View.find_value (view : d.View q) (p : Path) : (q.find p).value = (d.find p).value := by
  rw [view.eq_ofOption, Query.find_ofOption, Query.find_value]

theorem View.rootArray (view : d.View q) : q.rootArray = d.rootArray := by
  rw [view.eq_ofOption, Query.rootArray_ofOption]
  rfl

/-- Nothing is found below a root that is no object. -/
theorem find_of_not_object (h : ∀ node, d.root = some node → node.kind ≠ .object) (p : Path) :
    (d.find p).value = none := by
  rw [Query.find_value, Option.bind_eq_none_iff]
  intro node hnode
  exact Tree.at?_of_not_object (decide_eq_false (h node hnode)) p

/-- Every view of a document is answered as the document is, whatever is asked and whatever the root
is. Only the roots differ: a view has the root of the document where that is an object or an array, and
no root otherwise. Where it is no object, every path that is in order is answered with the fallback. -/
theorem answer_view (view : d.View q) :
    (∀ path question first second, (q.answer path question first).result =
      (d.answer path question second).result) ∧
    q.rootArray = d.rootArray ∧
    (∀ node, q.root = some node ↔
      d.root = some node ∧ (node.kind = .object ∨ node.kind = .array)) ∧
    (q.isNeutral = true ↔
      ∀ node, d.root = some node → node.kind ≠ .object ∧ node.kind ≠ .array) ∧
    ((∀ node, d.root = some node → node.kind ≠ .object) →
      ∀ path p, Path.read path = .ok p → ∀ question cache,
        (d.answer path question cache).result = .ok question.fallback ∧
        (q.answer path question cache).result = .ok question.fallback) := by
  have hanswer (path : String) (question : Question) (first second : Option PathCache) :
      (q.answer path question first).result = (d.answer path question second).result := by
    simp only [Query.answer_result, view.find_value]
  have hroot (node : Node) : q.root = some node ↔
      d.root = some node ∧ (node.kind = .object ∨ node.kind = .array) := by
    rw [view.eq_ofOption, Query.ofOption_root, Option.filter_eq_some_iff, Tree.isContainer_iff]
  refine ⟨hanswer, view.rootArray, hroot, ?_, ?_⟩
  · rw [Query.isNeutral, Option.isNone_iff_eq_none, Option.eq_none_iff_forall_ne_some]
    simp only [ne_eq, hroot, not_and, not_or]
  · intro hscalar path p hread question cache
    have hfallback : (d.answer path question cache).result = .ok question.fallback := by
      rw [Query.answer_of_read _ hread, find_of_not_object hscalar, Question.of_none]
    exact ⟨hfallback, (hanswer path question cache cache).trans hfallback⟩

/-- A document that holds a text keeps it as its root, and its query has none. -/
theorem answer_view_scalar :
    (ofNode (.string "x")).View (ofNode (.string "x")).query.value ∧
    (ofNode (.string "x")).query.value.isNeutral = true ∧
    Path.read "x" = .ok ⟨[⟨"x", []⟩], by simp⟩ ∧
    ((ofNode (.string "x")).answer "x" (.string "none") none).result = .ok (.string "none") := by
  have hview : (ofNode (.string "x")).View (ofNode (.string "x")).query.value := .query
  have hread : Path.read "x" = .ok ⟨[⟨"x", []⟩], by simp⟩ := rfl
  obtain ⟨-, -, -, hneutral, hfallback⟩ := answer_view hview
  have hkind : ∀ node, (ofNode (.string "x")).root = some node →
      node.kind ≠ .object ∧ node.kind ≠ .array := by
    rintro node ⟨⟩
    exact ⟨by decide, by decide⟩
  refine ⟨hview, hneutral.2 hkind, hread, ?_⟩
  exact (hfallback (fun node hnode => (hkind node hnode).1) "x" _ hread (.string "none") none).1

end Document

/-!
Replacing the numbers of a tree by others with the same words and doubles replaces them in every
answer and changes nothing else. A document of a value is such a replacement, so it answers like a
query over the value itself.
-/

variable {ν μ : Type}

/-- A replacement of numbers that keeps the answer to both questions asked of them. -/
structure Numeric.Preserves [Numeric ν] [Numeric μ] (f : ν → μ) : Prop where
  word : ∀ n, toInt64? (f n) = toInt64? n
  double : ∀ n, toBinary64 (f n) = toBinary64 n

theorem Json.Number.preserves_toDocument : Numeric.Preserves Json.Number.toDocument :=
  ⟨toInt64?_toDocument, toBinary64_toDocument⟩

namespace Tree

variable (f : ν → μ)

theorem elements?_map (t : Tree ν) :
    (t.map f).elements? = t.elements?.map (List.map (map f)) := by
  cases t <;> simp [map, elements?]

theorem string?_map (t : Tree ν) : (t.map f).string? = t.string? := by
  cases t <;> rfl

theorem boolean?_map (t : Tree ν) : (t.map f).boolean? = t.boolean? := by
  cases t <;> rfl

theorem isObject_map (t : Tree ν) : (t.map f).isObject = t.isObject := by
  simp [isObject]

variable [Numeric ν] [Numeric μ] {f}

theorem int64?_map (hf : Numeric.Preserves f) (t : Tree ν) : (t.map f).int64? = t.int64? := by
  cases t with
  | number n => exact hf.word n
  | _ => rfl

theorem binary64?_map (hf : Numeric.Preserves f) (t : Tree ν) :
    (t.map f).binary64? = t.binary64? := by
  cases t with
  | number n => exact congrArg some (hf.double n)
  | _ => rfl

end Tree

/-- Replaces the numbers in the nodes of an answer. What is no node stays as it is. -/
def Answer.map (f : ν → μ) : Answer ν → Answer μ
  | .node found => .node (found.map (Tree.map f))
  | .string s => .string s
  | .boolean b => .boolean b
  | .int32 n => .int32 n
  | .int64 n => .int64 n
  | .binary64 x => .binary64 x
  | .array found => .array (found.map (List.map (Tree.map f)))
  | .path p => .path p
  | .query q => .query ⟨q.root.map (Tree.map f)⟩
  | .cleared => .cleared

/-- What is said of a node with its numbers replaced is what is said of the node. -/
theorem Question.of_map [Numeric ν] [Numeric μ] {f : ν → μ} (hf : Numeric.Preserves f)
    (question : Question) (node : Option (Tree ν)) :
    question.of (node.map (Tree.map f)) = (question.of node).map f := by
  cases node with
  | none => cases question <;> rfl
  | some t =>
    cases question with
    | node => rfl
    | contains => rfl
    | string fallback => simp [of, Answer.map, Tree.string?_map]
    | boolean fallback => simp [of, Answer.map, Tree.boolean?_map]
    | int32 fallback => simp [of, Answer.map, Tree.int64?_map hf]
    | int64 fallback => simp [of, Answer.map, Tree.int64?_map hf]
    | binary64 fallback => simp [of, Answer.map, Tree.binary64?_map hf]
    | array => simp [of, Answer.map, Tree.elements?_map]
    | object =>
      cases h : t.isObject <;> simp [of, Answer.map, Option.filter, Tree.isObject_map, h]

namespace Query

/-- A walk from a root with its numbers replaced logs what the walk from the root logs. -/
theorem find_map (f : ν → μ) (root : Option (Tree ν)) (p : Path) :
    (⟨root.map (Tree.map f)⟩ : Query μ).find p =
      ⟨((⟨root⟩ : Query ν).find p).value.map (Tree.map f), ((⟨root⟩ : Query ν).find p).events⟩ := by
  cases root with
  | none => rfl
  | some t =>
    simp only [find, Option.map_some, Tree.walk_map]
    cases t.walk p <;> rfl

theorem rootArray_ofTree (t : Tree ν) : (ofTree t).value.rootArray = t.elements? :=
  rootArray_ofOption (some t)

/-- A document of a value walks like the value, and is answered like a query over the value, but
for the numbers in the nodes of an answer. -/
theorem answer_document_eq_value (v : Json.Value) :
    (∀ p : Path, Tree.walk p v.toNode = (v.walk p).map Json.Value.toNode ∧
      ((⟨some v.toNode⟩ : Query Number).find p).events =
        ((⟨some v⟩ : Query Json.Number).find p).events) ∧
    (∀ (path : String) (question : Question) (first second : Option PathCache),
      ((Document.ofValue v).answer path question first).result =
        ((ofTree v).value.answer path question second).result.map
          (Answer.map Json.Number.toDocument)) ∧
    (Document.ofValue v).rootArray =
      (ofTree v).value.rootArray.map (List.map Json.Value.toNode) := by
  refine ⟨?_, ?_, ?_⟩
  · intro p
    exact ⟨Tree.walk_map _ p v, congrArg Logged.events (find_map Json.Number.toDocument (some v) p)⟩
  · intro path question first second
    rw [answer_result, answer_result]
    cases Path.read path with
    | error e => rfl
    | ok p =>
      have hvalue : ((ofTree v).value.find p).value = v.at? p := find_ofOption (some v) p
      have hdocument : ((Document.ofValue v).find p).value =
          (v.at? p).map (Tree.map Json.Number.toDocument) := by
        rw [find_value]
        exact Tree.at?_map Json.Number.toDocument p v
      simp only [Except.map, hvalue, hdocument]
      rw [Question.of_map Json.Number.preserves_toDocument]
  · rw [rootArray_ofTree]
    exact Tree.elements?_map Json.Number.toDocument v

end Query

end TreePath
