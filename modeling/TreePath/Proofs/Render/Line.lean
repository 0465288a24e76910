import TreePath.Proofs.Query.Answer
import TreePath.Render

/-!
What a line of output depends on. A default that its kind refuses is noticed first, a faulty path
second; then the line is a function of the node that was found, whatever the cache holds.
-/

namespace TreePath

/-- A default that the kind of output has no use for: text that is no 32-bit integer, or that names
no truth value. All other kinds take any text. -/
inductive RefusesDefault : OutputKind → Option String → RenderError → Prop where
  | integer (text : String) (cause : IntegerError) (malformed : readInt32 text = .error cause) :
      RefusesDefault .integer (some text) (.integerDefault cause)
  | boolean (text : String) (malformed : text ≠ "true" ∧ text ≠ "false") :
      RefusesDefault .boolean (some text) .booleanDefault

/-- The line for a node, or for none: the part of the node that the kind asks for, as text, or else
the default. -/
def lineOf (kind : OutputKind) (default? : Option String) (style : Json.Style)
    (node : Option Json.Value) : Except RenderError String :=
  match kind with
  | .raw => .ok (jsonLine style default? node)
  | .string => .ok ((node.bind Tree.string?).getD (default?.getD ""))
  | .integer => (integerDefault default?).map fun fallback =>
      toString ((node.bind fun t => t.int64?.bind fun n => int32? n.toInt).getD fallback).toInt
  | .boolean => (booleanDefault default?).map fun fallback =>
      if (node.bind Tree.boolean?).getD fallback then "true" else "false"
  | .array => .ok (jsonLine style default? ((node.bind Tree.elements?).map .array))
  | .object => .ok (jsonLine style default? (node.filter Tree.isObject))

theorem readBoolean?_eq_none_iff (text : String) :
    readBoolean? text = none ↔ text ≠ "true" ∧ text ≠ "false" := by
  unfold readBoolean?
  split
  · next h => simp [h]
  · next h =>
    split
    · next h' => simp [h']
    · next h' => simp [h, h']

theorem integerDefault_eq_error_iff {default? : Option String} {e : RenderError} :
    integerDefault default? = .error e ↔ RefusesDefault .integer default? e := by
  constructor
  · intro h
    cases default? with
    | none => contradiction
    | some text =>
      cases hread : readInt32 text with
      | ok n => simp [integerDefault, hread, Except.mapError] at h
      | error cause =>
        simp only [integerDefault, hread, Except.mapError, Except.error.injEq] at h
        rw [← h]
        exact .integer text cause hread
  · intro h
    cases h with
    | integer text cause malformed => rw [integerDefault, malformed]; rfl

theorem booleanDefault_eq_error_iff {default? : Option String} {e : RenderError} :
    booleanDefault default? = .error e ↔ RefusesDefault .boolean default? e := by
  constructor
  · intro h
    cases default? with
    | none => contradiction
    | some text =>
      cases hread : readBoolean? text with
      | some b => simp [booleanDefault, hread] at h
      | none =>
        simp only [booleanDefault, hread, Except.error.injEq] at h
        rw [← h]
        exact .boolean text ((readBoolean?_eq_none_iff text).1 hread)
  · intro h
    cases h with
    | boolean text malformed => rw [booleanDefault, (readBoolean?_eq_none_iff text).2 malformed]

/-- A line fails only where its default is refused, whatever the node is. -/
theorem lineOf_eq_error_iff {kind : OutputKind} {default? : Option String} {style : Json.Style}
    {node : Option Json.Value} {e : RenderError} :
    lineOf kind default? style node = .error e ↔ RefusesDefault kind default? e := by
  cases kind with
  | integer =>
    rw [← integerDefault_eq_error_iff, lineOf]
    cases integerDefault default? <;> simp [Except.map]
  | boolean =>
    rw [← booleanDefault_eq_error_iff, lineOf]
    cases booleanDefault default? <;> simp [Except.map]
  | _ =>
    constructor <;> intro h
    · contradiction
    · cases h

variable (q : Query Json.Number) {path : String} (kind : OutputKind) (default? : Option String)
  (style : Json.Style) (cache : Option PathCache)

/-- The line is that of the node at the path. A faulty path is the failure, unless the default is
refused before. -/
theorem render_eq : render q path kind default? style cache =
    match Path.read path with
    | .ok p => lineOf kind default? style (q.find p).value
    | .error e => (lineOf kind default? style none).bind fun _ => .error (.path e) := by
  have hget : ∀ {α : Type} (read : Json.Value → Option α) (fallback : α),
      (q.get read path fallback cache).result =
        (Path.read path).map fun p => ((q.find p).value.bind read).getD fallback := by
    intro α read fallback
    rw [Query.get, Lookup.map_result, Query.resolve_result]
    cases Path.read path <;> rfl
  cases kind with
  | raw =>
    simp only [render, lineOf, Lookup.map_result, Query.resolve_result]
    cases Path.read path <;> rfl
  | string =>
    simp only [render, lineOf, Query.getString, hget]
    cases Path.read path <;> rfl
  | integer =>
    simp only [render, lineOf, Query.getInt32, Lookup.map_result, hget]
    cases integerDefault default? <;> cases Path.read path <;> rfl
  | boolean =>
    simp only [render, lineOf, Query.getBoolean, Lookup.map_result, hget]
    cases booleanDefault default? <;> cases Path.read path <;> rfl
  | array =>
    simp only [render, lineOf, Query.getArray, Lookup.map_result, Query.resolve_result]
    cases Path.read path <;> rfl
  | object =>
    simp only [render, lineOf, Query.getObject, Lookup.map_result, Query.resolve_result]
    cases Path.read path <;> rfl

theorem render_of_read {p : Path} (reads : Path.read path = .ok p) :
    render q path kind default? style cache = lineOf kind default? style (q.find p).value := by
  rw [render_eq, reads]

theorem render_of_fault {e : PathError} (fault : Path.read path = .error e) :
    render q path kind default? style cache =
      (lineOf kind default? style none).bind fun _ => .error (.path e) := by
  rw [render_eq, fault]

/-- A refused default comes before a faulty path, and nothing else fails. -/
theorem render_eq_error_iff {e : RenderError} :
    render q path kind default? style cache = .error e ↔
      RefusesDefault kind default? e ∨
        ((∀ e, ¬ RefusesDefault kind default? e) ∧ ∃ cause, Path.read path = .error cause ∧
          e = .path cause) := by
  cases hread : Path.read path with
  | ok p => simp [render_of_read q kind default? style cache hread, lineOf_eq_error_iff]
  | error cause =>
    rw [render_of_fault q kind default? style cache hread]
    cases hline : lineOf kind default? style none with
    | error e' =>
      have hrefused := lineOf_eq_error_iff.1 hline
      constructor
      · intro h
        exact .inl (Except.error.inj h ▸ hrefused)
      · rintro (h | ⟨haccepted, -⟩)
        · rw [← lineOf_eq_error_iff.2 h, hline]
          rfl
        · exact absurd hrefused (haccepted e')
    | ok line =>
      have haccepted : ∀ e, ¬ RefusesDefault kind default? e := by
        intro e h
        rw [lineOf_eq_error_iff.2 h] at hline
        contradiction
      constructor
      · intro h
        exact .inr ⟨haccepted, cause, rfl, (Except.error.inj h).symm⟩
      · rintro (h | ⟨-, _, hcause, rfl⟩)
        · exact absurd h (haccepted e)
        · rw [Except.error.inj hcause]
          rfl

/-- No cache changes a line. -/
theorem render_cache_eq (other : Option PathCache) :
    render q path kind default? style cache = render q path kind default? style other := by
  rw [render_eq, render_eq]

end TreePath
