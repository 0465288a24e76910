import TreePath.Proofs.Query.Answer

/-!
Faulty paths. A question fails exactly where the text of its path is at fault, and with that fault.
Nothing is logged then and the cache stays as it is, whatever tree is asked and whatever the cache
holds; in every other case there is an answer.
-/

namespace TreePath

variable {ν α β : Type}

def Reply.fault (e : PathError) (cache : Option PathCache) : Reply α := ⟨.error e, [], false, cache⟩

/-- A faulty text is never held, and is not kept. -/
theorem PathCache.fetch_of_fault (c : PathCache) {text : String} {e : PathError}
    (fault : Path.read text = .error e) : c.fetch text = ⟨.error e, false, c⟩ := by
  have hpath := (c.fetch_path text).trans fault
  rcases c.fetch_cases text with
    ⟨path, -, h⟩ | ⟨e', -, -, h⟩ | ⟨path, -, -, -, h⟩ | ⟨path, reads, -, -, h⟩
  · simp [h] at hpath
  · rw [h] at hpath ⊢
    rw [Except.error.inj hpath]
  · simp [h] at hpath
  · simp [h] at hpath

namespace Lookup

/-- A question about the path of a text: all it does to the cache is to fetch the text, which alone
decides whether there is an answer. A faulty text leaves no trace. -/
structure Asks (l : Lookup α) (text : String) : Prop where
  hit : ∀ cache, (l cache).hit = (path text cache).hit
  cache : ∀ cache, (l cache).cache = (path text cache).cache
  fault : ∀ e cache, Path.read text = .error e → l cache = .fault e cache
  answer : ∀ p cache, Path.read text = .ok p → ∃ value, (l cache).result = .ok value

theorem path_of_fault {text : String} {e : PathError} (fault : Path.read text = .error e)
    (cache : Option PathCache) : path text cache = .fault e cache := by
  cases cache with
  | none => rw [path, fault]; rfl
  | some c => rw [path, c.fetch_of_fault fault]; rfl

theorem asks_along (text : String) (go : Path → Logged α) : (along text go).Asks text where
  hit cache := by
    simp only [along, path_result]
    cases Path.read text <;> rfl
  cache cache := by
    simp only [along, path_result]
    cases Path.read text <;> rfl
  fault e cache fault := by
    simp only [along, path_of_fault fault, Reply.fault]
  answer p cache reads := by
    rw [along_result, reads]
    exact ⟨(go p).value, rfl⟩

namespace Asks

variable {l : Lookup α} {text : String} (h : l.Asks text)

include h

theorem map (f : α → β) : (l.map f).Asks text where
  hit := h.hit
  cache := h.cache
  fault e cache fault := by
    rw [Lookup.map, h.fault e cache fault]
    rfl
  answer p cache reads := by
    obtain ⟨value, hvalue⟩ := h.answer p cache reads
    exact ⟨f value, by rw [map_result, hvalue]; rfl⟩

theorem result_eq_error_iff (cache : Option PathCache) (e : PathError) :
    (l cache).result = .error e ↔ Path.read text = .error e := by
  constructor
  · intro hresult
    cases hread : Path.read text with
    | error e' =>
      rw [h.fault e' cache hread] at hresult
      rw [Except.error.inj hresult]
    | ok p =>
      obtain ⟨value, hvalue⟩ := h.answer p cache hread
      simp [hvalue] at hresult
  · intro hread
    rw [h.fault e cache hread]
    rfl

theorem eq_fault_iff (cache : Option PathCache) (e : PathError) :
    l cache = .fault e cache ↔ Path.read text = .error e := by
  refine ⟨fun hreply => ?_, h.fault e cache⟩
  rw [← h.result_eq_error_iff cache, hreply]
  rfl

theorem exists_answer_iff (cache : Option PathCache) :
    (∃ value, (l cache).result = .ok value) ↔ ∃ p, Path.read text = .ok p := by
  constructor
  · rintro ⟨value, hvalue⟩
    cases hread : Path.read text with
    | error e =>
      rw [h.fault e cache hread] at hvalue
      contradiction
    | ok p => exact ⟨p, rfl⟩
  · rintro ⟨p, hread⟩
    exact h.answer p cache hread

end Asks

end Lookup

namespace Query

theorem asks_resolve (q : Query ν) (path : String) : (q.resolve path).Asks path :=
  Lookup.asks_along path q.find

variable [Numeric ν]

theorem asks_answer (q : Query ν) (path : String) (question : Question) :
    (q.answer path question).Asks path := by
  have hresolve := q.asks_resolve path
  cases question with
  | node => exact hresolve.map _
  | _ => exact (hresolve.map _).map _

/-- Whatever is asked, of a query with any root or none and with any cache or none: the question
fails with a fault exactly where its text is read with that fault. Its reply is then the fault and
nothing else, neither an event nor another cache; and there is an answer exactly where the text is
read. -/
theorem answer_error_iff_read (q : Query ν) (path : String) (question : Question)
    (cache : Option PathCache) :
    (∀ e, (q.answer path question cache).result = .error e ↔ Path.read path = .error e) ∧
    (∀ e, q.answer path question cache = .fault e cache ↔ Path.read path = .error e) ∧
    ((∃ answer, (q.answer path question cache).result = .ok answer) ↔
      ∃ p, Path.read path = .ok p) := by
  have h := q.asks_answer path question
  exact ⟨h.result_eq_error_iff cache, h.eq_fault_iff cache, h.exists_answer_iff cache⟩

end Query

end TreePath
