import TreePath.Proofs.Tree.Chain
import TreePath.Query.Basic

/-!
What a query logs. It is silent where it finds a node, and otherwise it logs one event, which tells of
the first step that fails.
-/

namespace TreePath

namespace Tree

variable {ν : Type}

/-- What there is to report of a path that does not lead to a node, as a message and named values. A
null root comes first; then the first segment whose property no entry has, or at whose next position
there is no element. -/
inductive Reports (t : Tree ν) (p : Path) : String → List (String × String) → Prop where
  | nullRoot (root : t.kind = .null) : Reports t p "root is null" [("path", p.text)]
  | property (done later : List Segment) (s : Segment) (node : Tree ν) (root : t.kind ≠ .null)
      (path : p.segments = done ++ s :: later) (chain : Chain t (done.flatMap Segment.route) node)
      (missing : ∀ child, ¬ Child node (.key s.property) child) :
      Reports t p "property lookup did not resolve"
        [("property", s.property), ("kind", node.kind.name)]
  | index (done later : List Segment) (s : Segment) (earlier rest : List UInt64) (index : UInt64)
      (node : Tree ν) (root : t.kind ≠ .null) (path : p.segments = done ++ s :: later)
      (indices : s.indices = earlier ++ index :: rest)
      (chain : Chain t (done.flatMap Segment.route ++ .key s.property :: earlier.map .position) node)
      (missing : ∀ child, ¬ Child node (.position index) child) :
      Reports t p "index step did not resolve"
        [("property", s.property), ("index", toString index.toNat), ("kind", node.kind.name)]

/-- The report of a path is that of the walk along it. -/
theorem reports_iff {t : Tree ν} {p : Path} {message : String} {fields : List (String × String)} :
    Reports t p message fields ↔ ∃ miss, t.walk p = .error miss ∧
      message = (Event.missed miss).message ∧ fields = (Event.missed miss).fields := by
  constructor
  · intro h
    cases h with
    | nullRoot root => exact ⟨_, walk_of_null root p, rfl, rfl⟩
    | property done later s node root path chain missing =>
      refine ⟨.property s.property node.kind, ?_, rfl, rfl⟩
      rw [walk_of_ne_null root, walkSegments_eq_error_iff]
      exact ⟨done, s, later, node, path, chain, walkSegment_eq_error_iff.2 (.inl ⟨missing, rfl⟩)⟩
    | index done later s earlier rest index node root path indices chain missing =>
      obtain ⟨between, hdone, hearlier⟩ := chain_append_iff.1 chain
      refine ⟨.index s.property index node.kind, ?_, rfl, rfl⟩
      rw [walk_of_ne_null root, walkSegments_eq_error_iff]
      exact ⟨done, s, later, between, path, hdone, walkSegment_eq_error_iff.2
        (.inr ⟨earlier, index, rest, node, indices, hearlier, missing, rfl⟩)⟩
  · rintro ⟨miss, hmiss, rfl, rfl⟩
    by_cases root : t.kind = .null
    · rw [walk_of_null root] at hmiss
      obtain rfl := Except.error.inj hmiss
      exact .nullRoot root
    · rw [walk_of_ne_null root, walkSegments_eq_error_iff] at hmiss
      obtain ⟨done, s, later, between, path, hdone, hmiss⟩ := hmiss
      rcases walkSegment_eq_error_iff.1 hmiss with ⟨missing, rfl⟩ |
        ⟨earlier, index, rest, node, indices, hearlier, missing, rfl⟩
      · exact .property done later s between root path hdone missing
      · exact .index done later s earlier rest index node root path indices
          (chain_append_iff.2 ⟨between, hdone, hearlier⟩) missing

end Tree

namespace Query

variable {ν : Type}

theorem find_of_walk {t node : Tree ν} {p : Path} (h : t.walk p = .ok node) :
    (⟨some t⟩ : Query ν).find p = ⟨some node, []⟩ := by
  simp only [find, h, Logged.quiet]

theorem find_of_miss {t : Tree ν} {p : Path} {miss : Miss} (h : t.walk p = .error miss) :
    (⟨some t⟩ : Query ν).find p = ⟨none, [.missed miss]⟩ := by
  simp only [find, h]

theorem find_cases (q : Query ν) (p : Path) :
    (q.root = none ∧ q.find p = ⟨none, []⟩) ∨
    (∃ t node, q.root = some t ∧ t.walk p = .ok node ∧ q.find p = ⟨some node, []⟩) ∨
    (∃ t miss, q.root = some t ∧ t.walk p = .error miss ∧ q.find p = ⟨none, [.missed miss]⟩) := by
  obtain ⟨root⟩ := q
  cases root with
  | none => exact .inl ⟨rfl, rfl⟩
  | some t =>
    cases hwalk : t.walk p with
    | ok node => exact .inr (.inl ⟨t, node, rfl, hwalk, find_of_walk hwalk⟩)
    | error miss => exact .inr (.inr ⟨t, miss, rfl, hwalk, find_of_miss hwalk⟩)

/-- A query finds a node, and logs nothing, exactly where a chain leads to it along the path from a
root that is not null. Otherwise it finds nothing and logs one event at the lowest level, whose
message and values are all that there is to report. -/
theorem find_reports (t : Tree ν) (p : Path) :
    (∀ node, (⟨some t⟩ : Query ν).find p = ⟨some node, []⟩ ↔
      t.kind ≠ .null ∧ Tree.Chain t p.route node) ∧
    ((∀ node, ¬ (t.kind ≠ .null ∧ Tree.Chain t p.route node)) →
      ∃ e : Event, (⟨some t⟩ : Query ν).find p = ⟨none, [e]⟩ ∧ e.level = .trace ∧
        ∀ message fields, Tree.Reports t p message fields ↔
          message = e.message ∧ fields = e.fields) := by
  simp only [← Tree.walk_eq_ok_iff]
  cases hwalk : t.walk p with
  | ok arrived =>
    rw [find_of_walk hwalk]
    refine ⟨?_, ?_⟩
    · intro node
      simp
    · intro h
      exact absurd rfl (h arrived)
  | error miss =>
    rw [find_of_miss hwalk]
    refine ⟨by simp, ?_⟩
    intro _
    refine ⟨.missed miss, rfl, rfl, ?_⟩
    intro message fields
    rw [Tree.reports_iff, hwalk]
    simp

/-- A key with a dot is matched as it stands, and the array behind it has no element. -/
theorem find_reports_empty_array :
    (∀ node : Tree Number, ¬ Tree.Chain (.object [("a.b", .array [])]) [.key "a.b", .position 0]
      node) ∧
    ∃ e : Event, (⟨some (.object [("a.b", .array [])])⟩ : Query Number).find
        ⟨[⟨"a.b", [0]⟩], by simp⟩ = ⟨none, [e]⟩ ∧
      "index step did not resolve" = e.message ∧
      [("property", "a.b"), ("index", "0"), ("kind", "array")] = e.fields := by
  have hchain (node : Tree Number) :
      ¬ Tree.Chain (.object [("a.b", .array [])]) [.key "a.b", .position 0] node := by
    rw [← Tree.follow?_eq_some_iff]
    simp [Tree.follow?, Tree.hop?, Tree.property?, Tree.element?, Tree.elements?]
  obtain ⟨e, hfind, -, hreports⟩ :=
    (find_reports (.object [("a.b", .array [])] : Tree Number) ⟨[⟨"a.b", [0]⟩], by simp⟩).2
      fun node h => hchain node h.2
  refine ⟨hchain, e, hfind, (hreports _ _).1 ?_⟩
  refine .index [] [] ⟨"a.b", [0]⟩ [] [] 0 (.array []) (by decide) rfl rfl ?_ ?_
  · rw [← Tree.follow?_eq_some_iff]
    rfl
  · exact Tree.hop?_eq_none_iff.1 rfl

end Query

end TreePath
