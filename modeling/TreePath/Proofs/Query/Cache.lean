import TreePath.Proofs.Query.Answer
import TreePath.Query.Session

/-!
Runs with a cache and without. A cache decides which paths are read again and nothing else: every
step of every run is answered, and logs, as it is without a cache.
-/

namespace TreePath

variable {ν α β : Type}

/-- The reply as it is without a cache: what was answered, and what was logged. -/
def Reply.bare (r : Reply α) : Reply α := ⟨r.result, r.events, false, none⟩

namespace Lookup

/-- A question that no cache changes: it is answered and logs as without one, and the cache stays,
with the same capacity. -/
structure Transparent (l : Lookup α) : Prop where
  bare : ∀ cache, (l cache).bare = l none
  capacity : ∀ cache, (l cache).cache.map PathCache.capacity = cache.map PathCache.capacity

theorem transparent_pure (value : α) : (pure value).Transparent := ⟨fun _ => rfl, fun _ => rfl⟩

theorem transparent_path (text : String) : (path text).Transparent where
  bare cache := by
    cases cache with
    | none => rfl
    | some c => simp only [Reply.bare, path, c.fetch_path]
  capacity cache := by
    cases cache with
    | none => rfl
    | some c => exact congrArg some (c.capacity_fetch text)

theorem transparent_along (text : String) (go : Path → Logged α) : (along text go).Transparent where
  bare cache := by
    simp only [along, path_result]
    cases Path.read text <;> rfl
  capacity cache := by
    have hpath := (transparent_path text).capacity cache
    simp only [along, path_result]
    cases Path.read text <;> exact hpath

theorem Transparent.map {l : Lookup α} (hl : l.Transparent) (f : α → β) :
    (l.map f).Transparent where
  bare cache := congrArg (Reply.map f) (hl.bare cache)
  capacity cache := hl.capacity cache

end Lookup

namespace Query

theorem transparent_resolve (q : Query ν) (path : String) : (q.resolve path).Transparent :=
  Lookup.transparent_along path q.find

theorem transparent_target (q : Query ν) (target : Target) : (q.target target).Transparent := by
  cases target with
  | node path => exact q.transparent_resolve path
  | object path => exact (q.transparent_resolve path).map _
  | element path index => exact ((q.transparent_resolve path).map _).map _
  | root => exact Lookup.transparent_pure _
  | rootElement index => exact Lookup.transparent_pure _
  | nothing => exact Lookup.transparent_pure _

variable [Numeric ν]

theorem transparent_answer (q : Query ν) (path : String) (question : Question) :
    (q.answer path question).Transparent := by
  have hresolve := q.transparent_resolve path
  cases question with
  | node => exact hresolve.map _
  | _ => exact (hresolve.map _).map _

end Query

mutual

def Record.bare : Record ν → Record ν
  | .intro reply nested => .intro reply.bare (Record.bareAll nested)

def Record.bareAll : List (Record ν) → List (Record ν)
  | [] => []
  | record :: rest => record.bare :: Record.bareAll rest

end

theorem Record.cache_bare (record : Record ν) : record.bare.reply.cache = none := by
  cases record
  rfl

namespace Query

variable [Numeric ν]

mutual

/-- One step. A nested script starts at the same node whatever the cache, since the node is part of
the answer that the cache does not change. -/
theorem runStep_bare (q : Query ν) (cache : Option PathCache) (step : Step) :
    (q.runStep cache step).bare = q.runStep none step ∧
      (q.runStep cache step).reply.cache.map PathCache.capacity =
        cache.map PathCache.capacity := by
  match step with
  | .ask question path =>
    have h := q.transparent_answer path question
    exact ⟨congrArg (Record.intro · []) (h.bare cache), h.capacity cache⟩
  | .path text =>
    have h := (Lookup.transparent_path text).map (Answer.path : Path → Answer ν)
    exact ⟨congrArg (Record.intro · []) (h.bare cache), h.capacity cache⟩
  | .root => exact ⟨rfl, rfl⟩
  | .rootArray => exact ⟨rfl, rfl⟩
  | .clear => cases cache <;> exact ⟨rfl, rfl⟩
  | .nested target steps =>
    have h := q.transparent_target target
    have hcapacity := h.capacity cache
    simp only [runStep, ← h.bare cache]
    cases hstart : (q.target target cache).result with
    | error e => simp [Reply.bare, hstart, Record.bare, Record.bareAll, Record.reply, hcapacity]
    | ok node =>
      have hrun := runSteps_bare (ofOption node).value (q.target target cache).cache steps
      have hnone := (runSteps_bare (ofOption node).value none steps).2
      rw [Option.map_none, Option.map_eq_none_iff] at hnone
      have hlater := hrun.2.trans hcapacity
      simp [Reply.bare, hstart, Record.bare, Record.reply, hrun.1, hnone, hlater]

/-- Steps in order, each with the cache that the one before it left. -/
theorem runSteps_bare (q : Query ν) (cache : Option PathCache) (steps : List Step) :
    Record.bareAll (q.runSteps cache steps).1 = (q.runSteps none steps).1 ∧
      (q.runSteps cache steps).2.map PathCache.capacity = cache.map PathCache.capacity := by
  match steps with
  | [] => exact ⟨rfl, rfl⟩
  | step :: steps =>
    have hstep := runStep_bare q cache step
    have hrest := runSteps_bare q (q.runStep cache step).reply.cache steps
    have hnone : (q.runStep none step).reply.cache = none := hstep.1 ▸ Record.cache_bare _
    simp only [runSteps, Record.bareAll, hstep.1, hrest.1, hnone, hrest.2, hstep.2, and_self]

end

end Query

def Transcript.bare : Transcript → Transcript
  | .document records => .document (Record.bareAll records)
  | .value records => .value (Record.bareAll records)

namespace Turn

theorem run_bare (cache : Option PathCache) (turn : Turn) :
    (turn.run cache).1.bare = (turn.run none).1 ∧ (turn.run none).2 = none ∧
      (turn.run cache).2.map PathCache.capacity = cache.map PathCache.capacity := by
  cases turn with
  | document query steps =>
    have h := query.runSteps_bare cache steps
    have hnone := (query.runSteps_bare none steps).2
    exact ⟨congrArg Transcript.document h.1, Option.map_eq_none_iff.1 hnone, h.2⟩
  | value query steps =>
    have h := query.runSteps_bare cache steps
    have hnone := (query.runSteps_bare none steps).2
    exact ⟨congrArg Transcript.value h.1, Option.map_eq_none_iff.1 hnone, h.2⟩

theorem runAll_bare (cache : Option PathCache) (turns : List Turn) :
    (runAll cache turns).1.map Transcript.bare = (runAll none turns).1 ∧
      (runAll cache turns).2.map PathCache.capacity = cache.map PathCache.capacity := by
  induction turns generalizing cache with
  | nil => exact ⟨rfl, rfl⟩
  | cons turn turns ih =>
    obtain ⟨hturn, hnone, hcapacity⟩ := turn.run_bare cache
    obtain ⟨hturns, hlater⟩ := ih (turn.run cache).2
    simp only [runAll, List.map_cons, hturn, hturns, hnone, hlater, hcapacity, and_self]

/-- Whatever is asked, of however many trees and with however many nested scripts, every step is
answered and logs with a shared cache of any capacity as it does without. The cache that is left
holds as much as before, and gives for every text what the reader gives. -/
theorem runAll_shared_cache (cache : PathCache) (turns : List Turn) :
    (runAll (some cache) turns).1.map Transcript.bare = (runAll none turns).1 ∧
    ∃ after, (runAll (some cache) turns).2 = some after ∧ after.capacity = cache.capacity ∧
      ∀ text, (after.fetch text).path = Path.read text := by
  obtain ⟨hbare, hcapacity⟩ := runAll_bare (some cache) turns
  obtain ⟨after, hafter, hsame⟩ := Option.map_eq_some_iff.1 hcapacity
  exact ⟨hbare, after, hafter, hsame, after.fetch_path⟩

end Turn

end TreePath
