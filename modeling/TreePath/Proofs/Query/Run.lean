import TreePath.Proofs.Query.Log
import TreePath.Query.Basic

/-!
Runs and the queries that they make. Every query that can be made starts at an object or an array or has
no root at all, and so does every query that a run makes on its way. So a run tells of a null root only
on the document that it starts with, and in all else each of its steps logs what a step logs.
-/

namespace TreePath

variable {ν : Type} {q r : Query ν} {cache : Option PathCache}

namespace Query

/-- How queries are made: the node that a query is made from, or none, and the query with what its
making logs. A query that is there already can be started again at any node, of its own tree or not.
The cache is handed to each question and is no part of a query. -/
inductive Made : {ν : Type} → Option (Tree ν) → Logged (Query ν) → Prop where
  | neutral {ν : Type} : Made (none : Option (Tree ν)) (.quiet neutral)
  | wrapped {ν : Type} (t : Tree ν) : Made (some t) (ofTree t)
  | option {ν : Type} (node : Option (Tree ν)) : Made node (ofOption node)
  | document (d : Document) : Made d.root d.query
  | again {ν : Type} {given : Option (Tree ν)} {made : Logged (Query ν)} (before : Made given made)
      (node : Option (Tree ν)) : Made node (ofOption node)

/-- The query is one that can be made. -/
def IsMade (q : Query ν) : Prop := ∃ given made, Made given made ∧ made.value = q

theorem Made.eq_ofOption {given : Option (Tree ν)} {made : Logged (Query ν)} (h : Made given made) :
    made = ofOption given := by
  cases h <;> rfl

theorem IsMade.kind (h : q.IsMade) {t : Tree ν} (root : q.root = some t) :
    t.kind = .object ∨ t.kind = .array := by
  obtain ⟨given, made, hmade, rfl⟩ := h
  rw [hmade.eq_ofOption, ofOption_root, Option.filter_eq_some_iff] at root
  exact Tree.isContainer_iff.1 root.2

theorem isMade_ofOption (node : Option (Tree ν)) : (ofOption node).value.IsMade :=
  ⟨node, ofOption node, .option node, rfl⟩

theorem IsMade.not_nullRoot (h : q.IsMade) : ¬ ∃ t, q.root = some t ∧ t.kind = .null := by
  rintro ⟨t, root, hnull⟩
  rcases h.kind root with hkind | hkind <;> simp [hnull] at hkind

variable [Numeric ν]

/-- In the run of a script on a query, with a cache, a step is run on a query and leaves a record: the
steps of the script on the query itself, and those of a nested one on the query of its target. -/
inductive Ran : Query ν → Option PathCache → List Step → Query ν → Step → Record ν → Prop where
  | here (q : Query ν) (cache : Option PathCache) (step : Step) (steps : List Step) :
      Ran q cache (step :: steps) q step (q.runStep cache step)
  | later {q r : Query ν} {cache : Option PathCache} {first step : Step} {steps : List Step}
      {record : Record ν} (rest : Ran q (q.runStep cache first).reply.cache steps r step record) :
      Ran q cache (first :: steps) r step record
  | deeper {q r : Query ν} {cache : Option PathCache} {target : Target} {inner : List Step}
      {node : Option (Tree ν)} {step : Step} {record : Record ν} (steps : List Step)
      (found : (q.target target cache).result = .ok node)
      (rest : Ran (ofOption node).value (q.target target cache).cache inner r step record) :
      Ran q cache (.nested target inner :: steps) r step record

namespace Ran

variable {steps : List Step} {step : Step} {record : Record ν}

/-- A run leaves the query that it starts with for queries that it makes, and for no other. -/
theorem eq_or_isMade (h : Ran q cache steps r step record) : r = q ∨ r.IsMade := by
  induction h with
  | here q cache step steps => exact .inl rfl
  | later rest ih => exact ih
  | deeper steps found rest ih =>
    -- The inner run starts with the query of the target, which is made here.
    rcases ih with rfl | hmade
    · exact .inr (isMade_ofOption _)
    · exact .inr hmade

theorem logs (h : Ran q cache steps r step record) : step.Logs r record.reply.events := by
  induction h with
  | here q cache step steps => exact q.logs_runStep cache step
  | later rest ih => exact ih
  | deeper steps found rest ih => exact ih

end Ran

end Query

/-- A record is in a transcript, at whatever depth. -/
inductive Record.Within (record : Record ν) : List (Record ν) → Prop where
  | here (rest : List (Record ν)) : Within record (record :: rest)
  | later {first : Record ν} {rest : List (Record ν)} (h : Within record rest) :
      Within record (first :: rest)
  | deeper {first : Record ν} (rest : List (Record ν)) (h : Within record first.nested) :
      Within record (first :: rest)

namespace Query

variable [Numeric ν]

-- By recursion on the script, and at a nested step on the inner script.
mutual

/-- Every record of a transcript is left by a step of the run. -/
theorem exists_ran_of_within (q : Query ν) (cache : Option PathCache) (steps : List Step)
    {record : Record ν} (h : record.Within (q.runSteps cache steps).1) :
    ∃ r step, Ran q cache steps r step record := by
  match steps with
  | [] => cases h
  | step :: steps =>
    rw [runSteps] at h
    cases h with
    | here => exact ⟨q, step, .here q cache step steps⟩
    | later h =>
      obtain ⟨r, other, hran⟩ := exists_ran_of_within q _ steps h
      exact ⟨r, other, .later hran⟩
    | deeper _ h => exact exists_ran_of_within_nested q cache step steps h

/-- Below a step there are records only where it is a nested script with a target. -/
theorem exists_ran_of_within_nested (q : Query ν) (cache : Option PathCache) (step : Step)
    (steps : List Step) {record : Record ν} (h : record.Within (q.runStep cache step).nested) :
    ∃ r other, Ran q cache (step :: steps) r other record := by
  match step with
  | .ask question path => cases h
  | .path text => cases h
  | .root => cases h
  | .rootArray => cases h
  | .clear => cases h
  | .nested target inner =>
    rw [runStep] at h
    cases hresult : (q.target target cache).result with
    | error e =>
      simp only [hresult] at h
      cases h
    | ok node =>
      simp only [hresult] at h
      obtain ⟨r, other, hran⟩ := exists_ran_of_within _ _ inner h
      exact ⟨r, other, .deeper steps hresult hran⟩

end

/-- A query that can be made starts at an object or an array or at nothing, and its making logs one event
exactly for a node that is neither. In every run that starts with it, at whatever depth, each record is
left by a step on a query that can be made, which logs what such a step logs and never that a root is
null. In a run that starts with a document only the steps on the document itself tell of a null root,
and only where it has one. -/
theorem made_logs :
    (∀ {ν : Type} [Numeric ν] {given : Option (Tree ν)} {made : Logged (Query ν)}, Made given made →
      (∀ t, made.value.root = some t → t.kind = .object ∨ t.kind = .array) ∧
      LogsMaking given made.events ∧
      ∀ cache steps record, Record.Within record (made.value.runSteps cache steps).1 →
        ∃ r step, Ran made.value cache steps r step record ∧ r.IsMade ∧
          step.Logs r record.reply.events ∧
          ∀ e ∈ record.reply.events, e.message ≠ "root is null") ∧
    ∀ (d : Document) cache steps record, Record.Within record (d.runSteps cache steps).1 →
      ∃ r step, Ran d.toQuery cache steps r step record ∧ (r = d.toQuery ∨ r.IsMade) ∧
        step.Logs r record.reply.events ∧
        ∀ e ∈ record.reply.events, e.message = "root is null" →
          r = d.toQuery ∧ ∃ t, d.root = some t ∧ t.kind = .null := by
  constructor
  · intro ν _ given made hmade
    have hstart : made.value.IsMade := ⟨given, made, hmade, rfl⟩
    refine ⟨fun t => hstart.kind, hmade.eq_ofOption ▸ logsMaking_ofOption given, ?_⟩
    intro cache steps record hwithin
    obtain ⟨r, step, hran⟩ := exists_ran_of_within _ cache steps hwithin
    have hr : r.IsMade := hran.eq_or_isMade.elim (· ▸ hstart) id
    refine ⟨r, step, hran, hr, hran.logs, ?_⟩
    intro e he hmessage
    exact hr.not_nullRoot (nullRoot_of_logs hran.logs ⟨e, he, hmessage⟩)
  · intro d cache steps record hwithin
    obtain ⟨r, step, hran⟩ := exists_ran_of_within _ cache steps hwithin
    refine ⟨r, step, hran, hran.eq_or_isMade, hran.logs, ?_⟩
    intro e he hmessage
    have hnull := nullRoot_of_logs hran.logs ⟨e, he, hmessage⟩
    rcases hran.eq_or_isMade with rfl | hr
    · exact ⟨rfl, hnull⟩
    · exact absurd hnull hr.not_nullRoot

/-- A nested script starts at an array in an object and finds no property there; a document that is null
says so. -/
theorem made_logs_nested :
    (Made (some (.object [("a", .array [])])) (ofTree (.object [("a", .array [])] : Tree Number)) ∧
      Record.Within ((⟨some (.array [])⟩ : Query Number).runStep none (.ask .node "c"))
        ((ofTree (.object [("a", .array [])] : Tree Number)).value.runSteps none
          [.nested (.node "a") [.ask .node "c"]]).1 ∧
      ∃ r step, Ran (ofTree (.object [("a", .array [])] : Tree Number)).value none
        [.nested (.node "a") [.ask .node "c"]] r step
        ((⟨some (.array [])⟩ : Query Number).runStep none (.ask .node "c")) ∧ r.IsMade ∧
        step.Logs r [.missed (.property "c" .array)]) ∧
    Record.Within ((⟨some .null⟩ : Query Number).runStep none (.ask .contains "a"))
        ((Document.ofNode .null).runSteps none [.ask .contains "a"]).1 ∧
      ∃ r step, Ran (Document.ofNode .null).toQuery none [.ask .contains "a"] r step
        ((⟨some .null⟩ : Query Number).runStep none (.ask .contains "a")) ∧
        r = (Document.ofNode .null).toQuery := by
  have hmade : Made (some (.object [("a", .array [])]))
      (ofTree (.object [("a", .array [])] : Tree Number)) := .wrapped _
  have hwithin : Record.Within ((⟨some (.array [])⟩ : Query Number).runStep none (.ask .node "c"))
      ((ofTree (.object [("a", .array [])] : Tree Number)).value.runSteps none
        [.nested (.node "a") [.ask .node "c"]]).1 := .deeper _ (.here _)
  have hdocument : Record.Within ((⟨some .null⟩ : Query Number).runStep none (.ask .contains "a"))
      ((Document.ofNode .null).runSteps none [.ask .contains "a"]).1 := .here _
  obtain ⟨r, step, hran, hr, hlogs, -⟩ := (made_logs.1 hmade).2.2 none _ _ hwithin
  obtain ⟨s, other, hother, -, -, hnull⟩ := made_logs.2 (.ofNode .null) none _ _ hdocument
  have hevent := hnull (.missed (.nullRoot ⟨[⟨"a", []⟩], by simp⟩)) (List.mem_singleton.2 rfl) rfl
  exact ⟨⟨hmade, hwithin, r, step, hran, hr, hlogs⟩, hdocument, s, other, hother, hevent.1⟩

end Query

end TreePath
