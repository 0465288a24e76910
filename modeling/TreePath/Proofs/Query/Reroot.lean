import TreePath.Proofs.Path.Reader
import TreePath.Proofs.Query.Answer

/-!
Starting again from a node that was found. A question about a joined path has the same answer as the
question about its second part, asked of a query that starts at the node of the first part.
-/

namespace TreePath

namespace Query

variable {ν : Type}

/-- A query that starts at a node finds what the walk from that node arrives at. A node that is no
root ends every walk in any case. -/
theorem find_ofOption (node : Option (Tree ν)) (p : Path) :
    ((ofOption node).value.find p).value = node.bind (Tree.at? p) := by
  rw [find_value, ofOption_root]
  cases node with
  | none => rfl
  | some t =>
    cases h : t.isContainer with
    | true => simp [Option.filter, h]
    | false =>
      have hobject : t.isObject = false := by
        cases t <;> simp_all [Tree.isContainer, Tree.isObject, Tree.kind, Kind.isContainer]
      simp [Option.filter, h, Tree.at?_of_not_object hobject]

/-- A node that is no root has no children that a query could list. -/
theorem rootArray_ofOption (node : Option (Tree ν)) :
    (ofOption node).value.rootArray = node.bind Tree.elements? := by
  cases node with
  | none => rfl
  | some t => cases t <;> rfl

/-- An object is the only kind of node that a path goes on from. -/
theorem filter_isObject_bind (node : Option (Tree ν)) (p : Path) :
    (node.filter Tree.isObject).bind (Tree.at? p) = node.bind (Tree.at? p) := by
  cases node with
  | none => rfl
  | some t => cases h : t.isObject <;> simp [Option.filter, h, Tree.at?_of_not_object]

/-- What a query finds at a joined path is what it finds from the node of the first part. -/
theorem find_append (q : Query ν) (p r : Path) :
    (q.find (p ++ r)).value = (q.find p).value.bind (Tree.at? r) := by
  simp only [find_value, Option.bind_assoc]
  congr 1
  funext t
  exact Tree.at?_append p r t

/-- What a query finds at a position is that child of the array found in front of it. -/
theorem find_extend (q : Query ν) (p : Path) (index : UInt64) :
    (q.find (p.extend [index])).value =
      ((q.find p).value.bind Tree.elements?).bind (·[index.toNat]?) := by
  simp only [find_value, Option.bind_assoc]
  congr 1
  funext t
  rw [Tree.at?_extend]
  rfl

variable [Numeric ν]

/-- A joined path is answered as its second part is from the node of its first part, whether that
node is asked for as it is or as an object; a position behind a path is that element of the array
at the path, and a path that goes on behind it is answered from that element. This holds of every
root, every question and every cache. -/
theorem answer_joined_eq_rerooted (q : Query ν) {s t : String} {p r : Path}
    (hs : Path.read s = .ok p) (ht : Path.read t = .ok r) (question : Question) (index : UInt64)
    (first second third : Option PathCache) :
    (∃ node answer, (q.resolve s first).result = .ok node ∧
      ((ofOption node).value.answer t question second).result = .ok answer ∧
      (q.answer (s ++ "." ++ t) question third).result = .ok answer) ∧
    (∃ object answer, (q.getObject s first).result = .ok object ∧
      ((ofOption object).value.answer t question second).result = .ok answer ∧
      (q.answer (s ++ "." ++ t) question third).result = .ok answer) ∧
    (∃ items answer, (q.getArray s first).result = .ok items ∧
      (q.resolve (s ++ "[" ++ toString index.toNat ++ "]") third).result =
        .ok (items.bind (·[index.toNat]?)) ∧
      ((ofOption (items.bind (·[index.toNat]?))).value.answer t question second).result =
        .ok answer ∧
      (q.answer (s ++ "[" ++ toString index.toNat ++ "]" ++ "." ++ t) question third).result =
        .ok answer) := by
  have hjoined := Path.read_append hs ht
  have hindex := Path.read_index hs index
  have hbehind := Path.read_append hindex ht
  refine ⟨⟨(q.find p).value, question.of ((q.find p).value.bind (Tree.at? r)), ?_, ?_, ?_⟩,
    ⟨(q.find p).value.filter Tree.isObject, question.of ((q.find p).value.bind (Tree.at? r)),
      ?_, ?_, ?_⟩,
    ⟨(q.find p).value.bind Tree.elements?, question.of ((q.find (p.extend [index])).value.bind
      (Tree.at? r)), ?_, ?_, ?_, ?_⟩⟩
  · rw [resolve_result, hs]
    rfl
  · rw [answer_of_read _ ht, find_ofOption]
  · rw [answer_of_read _ hjoined, find_append]
  · rw [getObject, Lookup.map_result, resolve_result, hs]
    rfl
  · rw [answer_of_read _ ht, find_ofOption, filter_isObject_bind]
  · rw [answer_of_read _ hjoined, find_append]
  · rw [getArray, Lookup.map_result, resolve_result, hs]
    rfl
  · rw [resolve_result, hindex, ← find_extend]
    rfl
  · rw [answer_of_read _ ht, find_ofOption, ← find_extend]
  · rw [answer_of_read _ hbehind, find_append]

/-- An object inside an array is reached in one path and in two. -/
theorem answer_joined_eq_rerooted_nested :
    Path.read "a[1]" = .ok ⟨[⟨"a", [1]⟩], by simp⟩ ∧ Path.read "b" = .ok ⟨[⟨"b", []⟩], by simp⟩ ∧
    ∃ node answer,
      ((⟨some (.object [("a", .array [.null, .object [("b", .string "x")]])])⟩ :
        Query Number).resolve "a[1]" none).result = .ok node ∧
      ((ofOption node).value.answer "b" .node none).result = .ok answer ∧
      ((⟨some (.object [("a", .array [.null, .object [("b", .string "x")]])])⟩ :
        Query Number).answer ("a[1]" ++ "." ++ "b") .node none).result = .ok answer := by
  have hs : Path.read "a[1]" = .ok ⟨[⟨"a", [1]⟩], by simp⟩ := rfl
  have ht : Path.read "b" = .ok ⟨[⟨"b", []⟩], by simp⟩ := rfl
  exact ⟨hs, ht, (answer_joined_eq_rerooted _ hs ht .node 0 none none none).1⟩

end Query

end TreePath
