import TreePath.Proofs.Query.Cache
import TreePath.Proofs.Query.Found
import TreePath.Proofs.Query.Miss
import TreePath.Proofs.Query.Usage

/-!
What a step logs: one event where its path leads nowhere from a root, one where it makes a query of a
node without children, and no other. That a root is null is told of only where it is.
-/

namespace TreePath

open Lookup

variable {ν : Type} {q : Query ν} {cache : Option PathCache}

theorem Event.message_eq_nullRoot_iff {e : Event} :
    e.message = "root is null" ↔ ∃ p, e = .missed (.nullRoot p) := by
  cases e with
  | missed miss => cases miss <;> simp [message]
  | _ => simp [message]

theorem Tree.message_of_walk {t : Tree ν} {p : Path} {miss : Miss} (h : t.walk p = .error miss) :
    (Event.missed miss).message = "root is null" ↔ t.kind = .null := by
  rw [Event.message_eq_nullRoot_iff]
  constructor
  · rintro ⟨asked, hmiss⟩
    obtain rfl := Event.missed.inj hmiss
    exact (walk_eq_nullRoot_iff.1 h).1
  · intro root
    rw [walk_of_null root] at h
    exact ⟨p, by rw [Except.error.inj h]⟩

namespace Query

/-- What a question about a path logs: one event where a root does not lead along the path, and
otherwise nothing. -/
structure LogsAlong (q : Query ν) (path : String) (events : List Event) : Prop where
  faulty : ∀ e, Path.read path = .error e → events = []
  neutral : q.root = none → events = []
  found : ∀ node, (q.resolve path).Gives (some node) → events = []
  missed : ∀ t, q.root = some t → (q.resolve path).Gives none →
    ∃ e, events = [e] ∧ e.level = .trace
  nullRoot : (∃ e ∈ events, e.message = "root is null") ↔
    (∃ p, Path.read path = .ok p) ∧ ∃ t, q.root = some t ∧ t.kind = .null

/-- What the making of a query from a node, or from none, logs: one event for a node without
children, and otherwise nothing. -/
structure LogsMaking (node : Option (Tree ν)) (events : List Event) : Prop where
  kept : (∀ t, node = some t → t.kind = .object ∨ t.kind = .array) → events = []
  dropped : ∀ t, node = some t → t.kind ≠ .object → t.kind ≠ .array →
    ∃ e, events = [e] ∧ e.level = .debug ∧
      e.message = "node cannot act as a root; using a neutral root" ∧
      e.fields = [("kind", t.kind.name)]

/-- Nothing is logged on a path that is faulty, that has no root to start at, or that leads to a node. -/
theorem logsAlong_nil {path : String}
    (arrives : ∀ t, q.root = some t → ¬ (q.resolve path).Gives none)
    (present : ∀ p t, Path.read path = .ok p → q.root = some t → t.kind ≠ .null) :
    q.LogsAlong path [] where
  faulty _ _ := rfl
  neutral _ := rfl
  found _ _ := rfl
  missed t root hnone := absurd hnone (arrives t root)
  nullRoot := by
    constructor
    · rintro ⟨e, he, -⟩
      contradiction
    · rintro ⟨⟨p, hread⟩, t, root, hnull⟩
      exact absurd hnull (present p t hread root)

theorem logsAlong_find {path : String} {p : Path} (valid : Path.read path = .ok p) :
    q.LogsAlong path (q.find p).events := by
  rcases q.find_cases p with ⟨hroot, h⟩ | ⟨t, node, hroot, hwalk, h⟩ | ⟨t, miss, hroot, hwalk, h⟩
  · rw [h]
    exact logsAlong_nil (by simp [hroot]) (by simp [hroot])
  · rw [h]
    refine logsAlong_nil ?_ ?_
    · intro _ _
      simp [resolve_gives_iff valid, h]
    · intro _ u _ hu
      obtain rfl := Option.some.inj (hroot.symm.trans hu)
      exact (Tree.walk_eq_ok_iff.1 hwalk).1
  · rw [h]
    refine ⟨by simp [valid], by simp [hroot], ?_, ?_, ?_⟩
    · intro node hnode
      simp [resolve_gives_iff valid, h] at hnode
    · intro _ _ _
      exact ⟨.missed miss, rfl, rfl⟩
    · simp [hroot, valid, Tree.message_of_walk hwalk]

theorem logsAlong_of_fault {path : String} {e : PathError} (fault : Path.read path = .error e) :
    q.LogsAlong path [] := by
  refine logsAlong_nil ?_ (by simp [fault])
  intro t _ hnone
  have hresult := hnone none
  rw [resolve_result, fault] at hresult
  contradiction

/-- Every question about a path logs what the resolving of the path logs. -/
theorem logsAlong_resolve (q : Query ν) (path : String) (cache : Option PathCache) :
    q.LogsAlong path (q.resolve path cache).events := by
  have hevents := Lookup.along_events path q.find cache
  rw [resolve, hevents]
  cases hread : Path.read path with
  | ok p => exact logsAlong_find hread
  | error e => exact logsAlong_of_fault hread

theorem logsMaking_ofOption (node : Option (Tree ν)) : LogsMaking node (ofOption node).events := by
  cases node with
  | none => exact ⟨fun _ => rfl, fun t h => by contradiction⟩
  | some t =>
    cases h : t.isContainer with
    | true =>
      refine ⟨fun _ => by simp [ofOption, h, Logged.quiet], ?_⟩
      rintro u ⟨⟩ hobject harray
      exact absurd (Tree.isContainer_iff.1 h) (by simp [hobject, harray])
    | false =>
      have hkind : ¬ (t.kind = .object ∨ t.kind = .array) := by
        rw [← Tree.isContainer_iff, h]
        decide
      refine ⟨fun hcontainer => absurd (hcontainer t rfl) hkind, ?_⟩
      rintro u ⟨⟩ - -
      exact ⟨.notARoot t.kind, by simp [ofOption, h], rfl, rfl, rfl⟩

/-- No making of a query tells of a null root. -/
theorem LogsMaking.message_ne {node : Option (Tree ν)} {events : List Event}
    (h : LogsMaking node events) : ∀ e ∈ events, e.message ≠ "root is null" := by
  by_cases hkind : ∀ t, node = some t → t.kind = .object ∨ t.kind = .array
  · rw [h.kept hkind]
    simp
  · push Not at hkind
    obtain ⟨t, hnode, hobject, harray⟩ := hkind
    obtain ⟨e, rfl, -, hmessage, -⟩ := h.dropped t hnode hobject harray
    simp [hmessage]

end Query

/-- What a step logs that is run on a query. Of a nested script these are the events of the way to its
target, and then those of the making of its query. -/
inductive Step.Logs (q : Query ν) : Step → List Event → Prop where
  | ask (question : Question) {path : String} {events : List Event}
      (along : q.LogsAlong path events) : Logs q (.ask question path) events
  | path (text : String) : Logs q (.path text) []
  | root : Logs q .root []
  | rootArray : Logs q .rootArray []
  | clear : Logs q .clear []
  | faulty {target : Target} {path : String} {e : PathError} (steps : List Step)
      (by_path : target.path? = some path) (fault : Path.read path = .error e) :
      Logs q (.nested target steps) []
  | nested {target : Target} {node : Option (Tree ν)} {way making : List Event} (steps : List Step)
      (gives : (q.target target).Gives node)
      (along : ∀ path, target.path? = some path → q.LogsAlong path way)
      (silent : target.path? = none → way = []) (made : Query.LogsMaking node making) :
      Logs q (.nested target steps) (way ++ making)

namespace Query

theorem logsAlong_target (q : Query ν) {target : Target} {path : String}
    (h : target.path? = some path) (cache : Option PathCache) :
    q.LogsAlong path (q.target target cache).events := by
  cases target with
  | node text => exact Option.some.inj h ▸ q.logsAlong_resolve text cache
  | object text => exact Option.some.inj h ▸ q.logsAlong_resolve text cache
  | element text index => exact Option.some.inj h ▸ q.logsAlong_resolve text cache
  | _ => contradiction

theorem target_gives_of_result (q : Query ν) {target : Target} {node : Option (Tree ν)}
    (h : (q.target target cache).result = .ok node) : (q.target target).Gives node := by
  have hbare := (q.transparent_target target).bare
  intro other
  have hsame : (q.target target other).bare = (q.target target cache).bare := by
    rw [hbare other, hbare cache]
  exact (congrArg Reply.result hsame).trans h

/-- A step tells of a null root only where the query that it is run on has one. -/
theorem nullRoot_of_logs {step : Step} {events : List Event} (h : step.Logs q events)
    (told : ∃ e ∈ events, e.message = "root is null") :
    ∃ t, q.root = some t ∧ t.kind = .null := by
  cases h with
  | ask question along => exact (along.nullRoot.1 told).2
  | @nested target node way making steps gives along silent made =>
    obtain ⟨e, he, hmessage⟩ := told
    rcases List.mem_append.1 he with hway | hmaking
    · cases hpath : target.path? with
      | some path => exact ((along path hpath).nullRoot.1 ⟨e, hway, hmessage⟩).2
      | none =>
        rw [silent hpath] at hway
        contradiction
    · exact absurd hmessage (made.message_ne e hmaking)
  | _ => simp at told

variable [Numeric ν]

/-- What one step logs, whatever the query and the cache. -/
theorem logs_runStep (q : Query ν) (cache : Option PathCache) (step : Step) :
    step.Logs q (q.runStep cache step).reply.events := by
  cases step with
  | ask question path =>
    have hresolve := q.logsAlong_resolve path cache
    cases question <;> exact .ask _ hresolve
  | path text => cases cache <;> exact .path text
  | root => exact .root
  | rootArray => exact .rootArray
  | clear => exact .clear
  | nested target steps =>
    simp only [runStep]
    cases hresult : (q.target target cache).result with
    | error e =>
      cases hpath : target.path? with
      | none =>
        obtain ⟨node, hnode⟩ := q.target_eq_pure hpath
        rw [hnode] at hresult
        contradiction
      | some path =>
        have hasks := q.asks_target hpath
        have hread := (hasks.result_eq_error_iff cache e).1 hresult
        simp only [Record.reply, hasks.fault e cache hread, Reply.fault]
        exact .faulty steps hpath hread
    | ok node =>
      refine .nested steps (q.target_gives_of_result hresult) ?_ ?_ (logsMaking_ofOption node)
      · intro path hpath
        exact q.logsAlong_target hpath cache
      · intro hpath
        obtain ⟨other, hother⟩ := q.target_eq_pure hpath
        rw [hother]
        rfl

end Query

end TreePath
