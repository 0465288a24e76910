import TreePath.Proofs.Json.RoundTrip
import TreePath.Proofs.Query.Reroot
import TreePath.Proofs.Render.Line

/-!
Two stages in a row. A node that is printed as JSON text and read again is asked for the rest of a
path as the value it came from is asked for the whole; a node that is missing is printed as a null,
and a null has no more nodes than a missing one.
-/

namespace TreePath

/-- The line of a query that starts at a value is that of the node at the path in the value. -/
theorem render_ofTree (v : Json.Value) {path : String} {p : Path} (reads : Path.read path = .ok p)
    (kind : OutputKind) (default? : Option String) (style : Json.Style)
    (cache : Option PathCache) :
    render (Query.ofTree v).value path kind default? style cache =
      lineOf kind default? style (v.at? p) := by
  rw [render_of_read _ kind default? style cache reads, Query.ofTree, Query.find_ofOption,
    Option.bind_some]

/-- Without a default, the line for a node at a path is the text of that node, or of a null. -/
theorem read?_jsonLine {text : String} {v : Json.Value} (reads : Json.read? text = some v)
    (path : Path) (style : Json.Style) :
    Json.read? (jsonLine style none (v.at? path)) = some ((v.at? path).getD .null) := by
  cases hnode : v.at? path with
  | some node => exact Json.read?_write_of_at? reads hnode style
  | none => exact (Json.read?_write_iff style .null).2 ⟨.null, Nat.zero_le _⟩

/-- No path goes on from a null. -/
theorem at?_getD_null {ν : Type} (node : Option (Tree ν)) (path : Path) :
    (node.getD .null).at? path = node.bind (Tree.at? path) := by
  cases node with
  | some t => rfl
  | none => exact Tree.at?_of_not_object rfl path

/-- A default that is not refused leaves nothing to fail. -/
theorem exists_lineOf_eq_ok {kind : OutputKind} {default? : Option String}
    (haccepted : ∀ e, ¬ RefusesDefault kind default? e) (style : Json.Style)
    (node : Option Json.Value) : ∃ line, lineOf kind default? style node = .ok line := by
  cases hline : lineOf kind default? style node with
  | ok line => exact ⟨line, rfl⟩
  | error e => exact absurd (lineOf_eq_error_iff.1 hline) (haccepted e)

/-- The raw line for the first part of a path, in either style, is read back as a value; a query of
that value with the second part gives the same line as a query of the first value with the joined
path, of every kind and with every default. With a default that the kind accepts it is a line, and
with another both fail alike. -/
theorem render_joined_eq_piped {text : String} {v : Json.Value} (reads : Json.read? text = some v)
    {s t : String} {p r : Path} (hs : Path.read s = .ok p) (ht : Path.read t = .ok r)
    (kind : OutputKind) (default? : Option String) (first second : Json.Style)
    (cache later other : Option PathCache) :
    ∃ line w, render (Query.ofTree v).value s .raw none first cache = .ok line ∧
      Json.read? line = some w ∧
      render (Query.ofTree w).value t kind default? second later =
        render (Query.ofTree v).value (s ++ "." ++ t) kind default? second other ∧
      ((∀ e, ¬ RefusesDefault kind default? e) → ∃ out,
        render (Query.ofTree w).value t kind default? second later = .ok out) := by
  have hpiped : render (Query.ofTree ((v.at? p).getD .null)).value t kind default? second later =
      lineOf kind default? second ((v.at? p).bind (Tree.at? r)) := by
    rw [render_ofTree _ ht, at?_getD_null]
  have hjoined : render (Query.ofTree v).value (s ++ "." ++ t) kind default? second other =
      lineOf kind default? second ((v.at? p).bind (Tree.at? r)) := by
    rw [render_ofTree v (Path.read_append hs ht), Tree.at?_append]
  refine ⟨jsonLine first none (v.at? p), (v.at? p).getD .null, ?_, read?_jsonLine reads p first,
    hpiped.trans hjoined.symm, fun haccepted => ?_⟩
  · rw [render_ofTree v hs, lineOf]
  · rw [hpiped]
    exact exists_lineOf_eq_ok haccepted second _

/-- An object is printed with line breaks, and a number inside it is asked for. -/
theorem render_joined_eq_piped_nested :
    Json.read? "\x7b\"a\":\x7b\"b\":[7]\x7d\x7d" =
      some (.object [("a", .object [("b", .array [.number (.integer 7 (by decide))])])]) ∧
    Path.read "a" = .ok ⟨[⟨"a", []⟩], by simp⟩ ∧ Path.read "b[0]" = .ok ⟨[⟨"b", [0]⟩], by simp⟩ ∧
    ∃ line w,
      render (Query.ofTree (.object
        [("a", .object [("b", .array [.number (.integer 7 (by decide))])])])).value
        "a" .raw none .indented none = .ok line ∧
      Json.read? line = some w ∧
      render (Query.ofTree w).value "b[0]" .integer (some "+3") .compact none =
        render (Query.ofTree (.object
          [("a", .object [("b", .array [.number (.integer 7 (by decide))])])])).value
          ("a" ++ "." ++ "b[0]") .integer (some "+3") .compact none := by
  have reads : Json.read? "\x7b\"a\":\x7b\"b\":[7]\x7d\x7d" =
      some (.object [("a", .object [("b", .array [.number (.integer 7 (by decide))])])]) := rfl
  have hs : Path.read "a" = .ok ⟨[⟨"a", []⟩], by simp⟩ := rfl
  have ht : Path.read "b[0]" = .ok ⟨[⟨"b", [0]⟩], by simp⟩ := rfl
  obtain ⟨line, w, hline, hw, hequal, -⟩ := render_joined_eq_piped reads hs ht .integer
    (some "+3") .indented .compact none none none
  exact ⟨reads, hs, ht, line, w, hline, hw, hequal⟩

end TreePath
