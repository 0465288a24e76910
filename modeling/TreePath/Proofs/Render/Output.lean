import TreePath.Proofs.Number.Numeral
import TreePath.Proofs.Query.Found
import TreePath.Proofs.Render.Line

/-!
Which requests come to a line, and what the line says. Two things can fail: a default that its kind
has no use for, which is noticed first, and the path. The style of the output shows only where a node
is printed as JSON text.
-/

namespace TreePath

open Lookup

/-- A default that is given, but is none for the kind: text that spells no short word, or no truth
value. -/
inductive BadDefault : OutputKind → Option String → Prop where
  | integer (text : String)
      (bad : ¬ ∃ n, SpellsInteger text.toList n ∧ -2 ^ 31 ≤ n ∧ n ≤ 2 ^ 31 - 1) :
      BadDefault .integer (some text)
  | boolean (text : String) (bad : text ≠ "true" ∧ text ≠ "false") : BadDefault .boolean (some text)

/-- The word that a default stands for. -/
inductive IntegerFallback : Option String → Int32 → Prop where
  | absent : IntegerFallback none 0
  | given (text : String) (n : Int32) (spells : SpellsInteger text.toList n.toInt) :
      IntegerFallback (some text) n

/-- The truth value that a default stands for. -/
inductive BooleanFallback : Option String → Bool → Prop where
  | absent : BooleanFallback none false
  | true : BooleanFallback (some "true") true
  | false : BooleanFallback (some "false") false

/-- Whether a kind of output prints a node as JSON text. -/
def OutputKind.Prints : OutputKind → Json.Value → Prop
  | .raw, _ => True
  | .array, t => t.kind = .array
  | .object, t => t.kind = .object
  | .string, _ | .integer, _ | .boolean, _ => False

/-- What a line of each kind is. -/
inductive Says (q : Query Json.Number) (path : String) (default? : Option String)
    (style : Json.Style) : OutputKind → String → Prop where
  | node {kind : OutputKind} {t : Json.Value} (found : (q.resolve path).Gives (some t))
      (prints : kind.Prints t) : Says q path default? style kind (Json.write style t)
  /-- Where there is no node that the kind prints, the default is printed as it is given. -/
  | fallback {kind : OutputKind} (json : kind = .raw ∨ kind = .array ∨ kind = .object)
      (missing : ∀ t, (q.resolve path).Gives (some t) → ¬ kind.Prints t) :
      Says q path default? style kind (default?.getD "null")
  | string {text : String} (gives : (q.getString path (default?.getD "")).Gives text) :
      Says q path default? style .string text
  /-- A default goes the same way as a number that is found: zeros in front and a plus are lost. -/
  | integer {fallback n : Int32} {line : String} (stands : IntegerFallback default? fallback)
      (gives : (q.getInt32 path fallback).Gives n) (spells : ShortestSpelling line.toList n.toInt) :
      Says q path default? style .integer line
  | boolean {fallback b : Bool} (stands : BooleanFallback default? fallback)
      (gives : (q.getBoolean path fallback).Gives b) :
      Says q path default? style .boolean (if b then "true" else "false")

theorem badDefault_iff {kind : OutputKind} {default? : Option String} :
    BadDefault kind default? ↔ ∃ e, RefusesDefault kind default? e := by
  constructor
  · rintro (⟨text, bad⟩ | ⟨text, bad⟩)
    · cases hread : readInt32 text with
      | ok n => exact absurd ((exists_readInt32_iff text).1 ⟨n, hread⟩) bad
      | error cause => exact ⟨_, .integer text cause hread⟩
    · exact ⟨_, .boolean text bad⟩
  · rintro ⟨e, ⟨text, cause, malformed⟩ | ⟨text, malformed⟩⟩
    · refine .integer text fun h => ?_
      obtain ⟨n, hn⟩ := (exists_readInt32_iff text).2 h
      rw [malformed] at hn
      contradiction
    · exact .boolean text malformed

theorem integerDefault_eq_ok_iff {default? : Option String} {n : Int32} :
    integerDefault default? = .ok n ↔ IntegerFallback default? n := by
  cases default? with
  | none =>
    constructor
    · intro h
      rw [← Except.ok.inj h]
      exact .absent
    · rintro ⟨⟩
      rfl
  | some text =>
    have hread : integerDefault (some text) = .ok n ↔ readInt32 text = .ok n := by
      rw [integerDefault]
      cases readInt32 text <;> simp [Except.mapError]
    rw [hread, readInt32_eq_ok_iff]
    constructor
    · exact .given text n
    · rintro ⟨⟩
      assumption

theorem booleanDefault_eq_ok_iff {default? : Option String} {b : Bool} :
    booleanDefault default? = .ok b ↔ BooleanFallback default? b := by
  constructor
  · intro h
    cases default? with
    | none =>
      rw [← Except.ok.inj h]
      exact .absent
    | some text =>
      rw [booleanDefault, readBoolean?] at h
      by_cases htrue : text = "true"
      · rw [if_pos htrue] at h
        rw [htrue, ← Except.ok.inj h]
        exact .true
      · by_cases hfalse : text = "false"
        · rw [if_neg htrue, if_pos hfalse] at h
          rw [hfalse, ← Except.ok.inj h]
          exact .false
        · rw [if_neg htrue, if_neg hfalse] at h
          contradiction
  · rintro (_ | _ | _) <;> rfl

section Line

variable {kind : OutputKind} {default? : Option String} {style : Json.Style}
  {node : Option Json.Value}

/-- What each kind prints as JSON text is the whole node. -/
theorem lineOf_of_prints {t : Json.Value} (prints : kind.Prints t) :
    lineOf kind default? style (some t) = .ok (Json.write style t) := by
  cases kind with
  | raw => rfl
  | array =>
    cases t with
    | array items => rfl
    | _ => contradiction
  | object =>
    have hobject : t.isObject = true := decide_eq_true prints
    rw [lineOf, Option.filter_some, if_pos hobject]
    rfl
  | string | integer | boolean => exact prints.elim

/-- Where a kind that prints JSON text has no node to print, it prints the default. -/
theorem lineOf_of_missing (json : kind = .raw ∨ kind = .array ∨ kind = .object)
    (missing : ∀ t, node = some t → ¬ kind.Prints t) :
    lineOf kind default? style node = .ok (default?.getD "null") := by
  cases node with
  | none => rcases json with rfl | rfl | rfl <;> rfl
  | some t =>
    have hnot := missing t rfl
    rcases json with rfl | rfl | rfl
    · exact (hnot trivial).elim
    · have hnone : t.elements? = none := by
        rw [Option.eq_none_iff_forall_ne_some]
        intro items hitems
        exact hnot (Tree.exists_elements?_iff.1 ⟨items, hitems⟩)
      rw [lineOf, Option.bind_some, hnone]
      rfl
    · have hobject : ¬ t.isObject = true := fun h => hnot (of_decide_eq_true (p := t.kind = .object) h)
      rw [lineOf, Option.filter_some, if_neg hobject]
      rfl

/-- Where no node is printed as JSON text, the style is of no account. -/
theorem lineOf_style_eq (missing : ∀ t, node = some t → ¬ kind.Prints t) (other : Json.Style) :
    lineOf kind default? style node = lineOf kind default? other node := by
  cases kind with
  | string | integer | boolean => rfl
  | raw => rw [lineOf_of_missing (.inl rfl) missing, lineOf_of_missing (.inl rfl) missing]
  | array =>
    rw [lineOf_of_missing (.inr (.inl rfl)) missing, lineOf_of_missing (.inr (.inl rfl)) missing]
  | object =>
    rw [lineOf_of_missing (.inr (.inr rfl)) missing, lineOf_of_missing (.inr (.inr rfl)) missing]

end Line

/-- Only a path that is in order leads somewhere. -/
theorem Query.find_of_gives {ν : Type} {q : Query ν} {path : String} {node : Option (Tree ν)}
    (h : (q.resolve path).Gives node) : ∃ p, Path.read path = .ok p ∧ (q.find p).value = node := by
  have hresult := h none
  rw [resolve_result] at hresult
  cases hread : Path.read path with
  | ok p => exact ⟨p, rfl, (resolve_gives_iff hread).1 h⟩
  | error e =>
    rw [hread] at hresult
    contradiction

section Says

variable {q : Query Json.Number} {path : String} {p : Path} (reads : Path.read path = .ok p)
  {kind : OutputKind} {default? : Option String} {style : Json.Style} {line : String}

include reads

/-- A kind that prints JSON text prints the node, or the default. -/
theorem says_of_json (json : kind = .raw ∨ kind = .array ∨ kind = .object)
    (hline : lineOf kind default? style (q.find p).value = .ok line) :
    Says q path default? style kind line := by
  by_cases hprints : ∃ t, (q.find p).value = some t ∧ kind.Prints t
  · obtain ⟨t, hnode, hprints⟩ := hprints
    rw [hnode, lineOf_of_prints hprints] at hline
    rw [← Except.ok.inj hline]
    exact .node ((Query.resolve_gives_iff reads).2 hnode) hprints
  · have hmissing : ∀ t, (q.find p).value = some t → ¬ kind.Prints t :=
      fun t hnode h => hprints ⟨t, hnode, h⟩
    rw [lineOf_of_missing json hmissing] at hline
    rw [← Except.ok.inj hline]
    exact .fallback json fun t found => hmissing t ((Query.resolve_gives_iff reads).1 found)

theorem says_of_lineOf (hline : lineOf kind default? style (q.find p).value = .ok line) :
    Says q path default? style kind line := by
  cases kind with
  | raw => exact says_of_json reads (.inl rfl) hline
  | array => exact says_of_json reads (.inr (.inl rfl)) hline
  | object => exact says_of_json reads (.inr (.inr rfl)) hline
  | string => exact .string ((Query.get_gives_iff reads).2 (Except.ok.inj hline))
  | integer =>
    rw [lineOf] at hline
    cases hdefault : integerDefault default? with
    | error e =>
      rw [hdefault] at hline
      contradiction
    | ok fallback =>
      rw [hdefault] at hline
      rw [← Except.ok.inj hline]
      exact .integer (integerDefault_eq_ok_iff.1 hdefault) ((Query.get_gives_iff reads).2 rfl)
        (shortestSpelling_toString _)
  | boolean =>
    rw [lineOf] at hline
    cases hdefault : booleanDefault default? with
    | error e =>
      rw [hdefault] at hline
      contradiction
    | ok fallback =>
      rw [hdefault] at hline
      rw [← Except.ok.inj hline]
      exact .boolean (booleanDefault_eq_ok_iff.1 hdefault) ((Query.get_gives_iff reads).2 rfl)

end Says

section Failure

variable (q : Query Json.Number) (path : String) {kind : OutputKind} {default? : Option String}
  (style : Json.Style) (cache : Option PathCache)

theorem render_of_refusesDefault {e : RenderError} (refused : RefusesDefault kind default? e) :
    render q path kind default? style cache = .error e :=
  (render_eq_error_iff q kind default? style cache).2 (.inl refused)

theorem render_of_faultyPath (accepted : ¬ BadDefault kind default?) {path : String} {e : PathError}
    (faulty : Path.read path = .error e) :
    render q path kind default? style cache = .error (.path e) :=
  (render_eq_error_iff q kind default? style cache).2
    (.inr ⟨fun cause refused => accepted (badDefault_iff.2 ⟨cause, refused⟩), e, faulty, rfl⟩)

theorem exists_render_eq_error_iff :
    (∃ e, render q path kind default? style cache = .error e) ↔
      BadDefault kind default? ∨ ∃ e, Path.read path = .error e := by
  constructor
  · rintro ⟨e, herror⟩
    rcases (render_eq_error_iff q kind default? style cache).1 herror with
      refused | ⟨-, cause, faulty, -⟩
    · exact .inl (badDefault_iff.2 ⟨e, refused⟩)
    · exact .inr ⟨cause, faulty⟩
  · intro h
    by_cases hbad : BadDefault kind default?
    · obtain ⟨e, refused⟩ := badDefault_iff.1 hbad
      exact ⟨e, render_of_refusesDefault q path style cache refused⟩
    · obtain ⟨e, faulty⟩ := h.resolve_left hbad
      exact ⟨_, render_of_faultyPath q style cache hbad faulty⟩

end Failure

/-- A request fails exactly where its default is bad for the kind of output, which is noticed whatever
is asked and whatever the path, or else where the path is faulty, with the fault of the path. Every
other request comes to a line of its kind: an integer in its shortest spelling, a truth value, or a
node as JSON text, which is the same text for the kind of the node and for raw output; and the default
stands in for what is missing. The style shows nowhere but in a node that is printed as JSON text. -/
theorem render_fails_or_says (q : Query Json.Number) (path : String) (kind : OutputKind)
    (default? : Option String) (style : Json.Style) (cache : Option PathCache) :
    ((∃ e, render q path kind default? style cache = .error e) ↔
      BadDefault kind default? ∨ ∃ e, Path.read path = .error e) ∧
    (BadDefault kind default? → ∃ e, RefusesDefault kind default? e ∧
      ∀ (q : Query Json.Number) (path : String) (style : Json.Style) (cache : Option PathCache),
        render q path kind default? style cache = .error e) ∧
    (¬ BadDefault kind default? → ∀ e, Path.read path = .error e →
      render q path kind default? style cache = .error (.path e)) ∧
    (∀ line, render q path kind default? style cache = .ok line →
      Says q path default? style kind line) ∧
    (∀ t, (q.resolve path).Gives (some t) → kind.Prints t →
      render q path kind default? style cache = render q path .raw default? style cache) ∧
    ((∀ t, (q.resolve path).Gives (some t) → ¬ kind.Prints t) → ∀ other,
      render q path kind default? style cache = render q path kind default? other cache) := by
  have hfails : (∃ e, render q path kind default? style cache = .error e) ↔
      BadDefault kind default? ∨ ∃ e, Path.read path = .error e :=
    exists_render_eq_error_iff q path style cache
  refine ⟨hfails, ?_, ?_, ?_, ?_, ?_⟩
  · intro hbad
    obtain ⟨e, refused⟩ := badDefault_iff.1 hbad
    exact ⟨e, refused, fun q path style cache => render_of_refusesDefault q path style cache refused⟩
  · intro accepted e faulty
    exact render_of_faultyPath q style cache accepted faulty
  · intro line hline
    cases hread : Path.read path with
    | ok p =>
      rw [render_of_read q kind default? style cache hread] at hline
      exact says_of_lineOf hread hline
    | error e =>
      obtain ⟨cause, hcause⟩ := hfails.2 (.inr ⟨e, hread⟩)
      rw [hline] at hcause
      contradiction
  · intro t found prints
    obtain ⟨p, hread, hnode⟩ := Query.find_of_gives found
    have hraw : OutputKind.raw.Prints t := trivial
    rw [render_of_read q _ default? style cache hread, render_of_read q _ default? style cache hread,
      hnode, lineOf_of_prints prints, lineOf_of_prints hraw]
  · intro missing other
    cases hread : Path.read path with
    | ok p =>
      rw [render_of_read q _ default? style cache hread, render_of_read q _ default? other cache hread]
      exact lineOf_style_eq (fun t hnode => missing t ((Query.resolve_gives_iff hread).2 hnode)) other
    | error e =>
      rw [render_of_fault q _ default? style cache hread, render_of_fault q _ default? other cache hread,
        lineOf_style_eq (by simp) other]

/-- A default with zeros in front is printed without them, in either style; one that is too large by
one is reported although the path is faulty too. -/
theorem render_fails_or_says_zeros :
    render .neutral "a" .integer (some "+007") .indented none = .ok "7" ∧
    Says .neutral "a" (some "+007") .indented .integer "7" ∧
    render .neutral "a" .integer (some "+007") .compact none = .ok "7" ∧
    BadDefault .integer (some "2147483648") ∧
    ∃ e, RefusesDefault .integer (some "2147483648") e ∧
      render .neutral "a[" .integer (some "2147483648") .compact none = .error e := by
  have hline : render .neutral "a" .integer (some "+007") .indented none = .ok "7" := rfl
  obtain ⟨-, -, -, hsays, -, hstyle⟩ :=
    render_fails_or_says .neutral "a" .integer (some "+007") .indented none
  have hbad : BadDefault .integer (some "2147483648") :=
    badDefault_iff.2 ⟨.integerDefault .tooLarge, .integer _ _ rfl⟩
  obtain ⟨-, hdefault, -⟩ :=
    render_fails_or_says .neutral "a[" .integer (some "2147483648") .compact none
  obtain ⟨e, refused, hrender⟩ := hdefault hbad
  exact ⟨hline, hsays _ hline, (hstyle (fun _ _ => id) .compact).symm.trans hline, hbad, e, refused,
    hrender _ _ _ _⟩

end TreePath
