import TreePath.Json.Number
import TreePath.Proofs.Query.Fault

/-!
What a script does to its cache. Two scripts with the same steps, on any two trees, find the same
texts in the cache and leave the same cache behind every step: what is held depends on the texts that
were asked for and never on the data. The cache after a script is the one after its calls, which can
be listed without a tree.
-/

namespace TreePath

variable {ν μ α β : Type}

/-- What a step has to do with the cache: whether its text was held, the cache behind it, and the
same of the steps nested in it. -/
inductive Usage where
  | intro (hit : Bool) (cache : Option PathCache) (nested : List Usage)

mutual

def Record.usage : Record ν → Usage
  | .intro reply nested => .intro reply.hit reply.cache (Record.usageAll nested)

def Record.usageAll : List (Record ν) → List Usage
  | [] => []
  | record :: rest => record.usage :: Record.usageAll rest

end

theorem Record.cache_eq_of_usage_eq {first : Record ν} {second : Record μ}
    (h : first.usage = second.usage) : first.reply.cache = second.reply.cache := by
  cases first
  cases second
  exact (Usage.intro.inj h).2.1

/-- Two questions that use every cache alike, and fail alike. -/
structure Lookup.Alike (l : Lookup α) (m : Lookup β) : Prop where
  hit : ∀ cache, (l cache).hit = (m cache).hit
  cache : ∀ cache, (l cache).cache = (m cache).cache
  error : ∀ cache e, (l cache).result = .error e ↔ (m cache).result = .error e

theorem Lookup.Asks.alike {l : Lookup α} {m : Lookup β} {text : String} (hl : l.Asks text)
    (hm : m.Asks text) : l.Alike m where
  hit cache := (hl.hit cache).trans (hm.hit cache).symm
  cache cache := (hl.cache cache).trans (hm.cache cache).symm
  error cache e := (hl.result_eq_error_iff cache e).trans (hm.result_eq_error_iff cache e).symm

theorem Lookup.alike_pure (a : α) (b : β) : (pure a).Alike (pure b) where
  hit _ := rfl
  cache _ := rfl
  error _ _ := by simp [pure]

def Target.path? : Target → Option String
  | .node path | .object path | .element path _ => some path
  | .root | .rootElement _ | .nothing => none

namespace Query

theorem asks_target (q : Query ν) {target : Target} {path : String}
    (h : target.path? = some path) : (q.target target).Asks path := by
  cases target with
  | node text => exact Option.some.inj h ▸ q.asks_resolve text
  | object text => exact Option.some.inj h ▸ (q.asks_resolve text).map _
  | element text index => exact Option.some.inj h ▸ ((q.asks_resolve text).map _).map _
  | _ => contradiction

theorem target_eq_pure (q : Query ν) {target : Target} (h : target.path? = none) :
    ∃ node, q.target target = .pure node := by
  cases target with
  | root => exact ⟨_, rfl⟩
  | rootElement index => exact ⟨_, rfl⟩
  | nothing => exact ⟨_, rfl⟩
  | _ => contradiction

theorem alike_target (q : Query ν) (r : Query μ) (target : Target) :
    (q.target target).Alike (r.target target) := by
  cases h : target.path? with
  | some path => exact (q.asks_target h).alike (r.asks_target h)
  | none =>
    obtain ⟨node, hnode⟩ := q.target_eq_pure h
    obtain ⟨other, hother⟩ := r.target_eq_pure h
    rw [hnode, hother]
    exact Lookup.alike_pure node other

variable [Numeric ν] [Numeric μ]

mutual

/-- One step. A nested script starts with the cache that its target left, from whatever node that
target has in either tree. -/
theorem runStep_usage (q : Query ν) (r : Query μ) (cache : Option PathCache) (step : Step) :
    (q.runStep cache step).usage = (r.runStep cache step).usage := by
  match step with
  | .ask question path =>
    have h := (q.asks_answer path question).alike (r.asks_answer path question)
    simp only [runStep, Record.usage, Record.usageAll, h.hit cache, h.cache cache]
  | .path text => rfl
  | .root => rfl
  | .rootArray => rfl
  | .clear => rfl
  | .nested target steps =>
    have h := q.alike_target r target
    have herror := h.error cache
    simp only [runStep]
    cases hq : (q.target target cache).result with
    | error e =>
      simp only [(herror e).1 hq, Record.usage, Record.usageAll, h.hit cache, h.cache cache]
    | ok node =>
      cases hr : (r.target target cache).result with
      | error e =>
        rw [(herror e).2 hr] at hq
        contradiction
      | ok other =>
        have hrun := runSteps_usage (ofOption node).value (ofOption other).value
          (r.target target cache).cache steps
        simp only [Record.usage, h.hit cache, h.cache cache, hrun.1, hrun.2]

theorem runSteps_usage (q : Query ν) (r : Query μ) (cache : Option PathCache)
    (steps : List Step) :
    Record.usageAll (q.runSteps cache steps).1 = Record.usageAll (r.runSteps cache steps).1 ∧
      (q.runSteps cache steps).2 = (r.runSteps cache steps).2 := by
  match steps with
  | [] => exact ⟨rfl, rfl⟩
  | step :: steps =>
    have hstep := runStep_usage q r cache step
    have hcache := Record.cache_eq_of_usage_eq hstep
    have hrest := runSteps_usage q r (r.runStep cache step).reply.cache steps
    simp only [runSteps, Record.usageAll, hstep, hcache, hrest, and_self]

end

end Query

/-- The calls for the path of a target, and those behind it unless the path is faulty. -/
def Target.calls (target : Target) (behind : List PathCache.Call) : List PathCache.Call :=
  match target.path? with
  | none => behind
  | some text => .fetch text :: if (Path.read text).isOk then behind else []

mutual

/-- The calls that a step makes on its cache, in order. -/
def Step.calls : Step → List PathCache.Call
  | .ask _ text => [.fetch text]
  | .path text => [.fetch text]
  | .root => []
  | .rootArray => []
  | .clear => [.clear]
  | .nested target steps => target.calls (Step.callsAll steps)

def Step.callsAll : List Step → List PathCache.Call
  | [] => []
  | step :: steps => step.calls ++ Step.callsAll steps

end

theorem PathCache.run_append (c : PathCache) (calls later : List Call) :
    c.run (calls ++ later) = (c.run calls).run later :=
  List.foldl_append

namespace Query

/-- A target whose text is faulty makes that one call; every other has a node, from which the calls
behind it are made. -/
theorem target_calls (q : Query ν) (target : Target) (c : PathCache)
    (behind : List PathCache.Call) :
    (∃ e, (q.target target (some c)).result = .error e ∧
      (q.target target (some c)).cache = some (c.run (target.calls behind))) ∨
    (∃ node after, (q.target target (some c)).result = .ok node ∧
      (q.target target (some c)).cache = some after ∧
      after.run behind = c.run (target.calls behind)) := by
  unfold Target.calls
  cases htarget : target.path? with
  | none =>
    obtain ⟨node, hnode⟩ := q.target_eq_pure htarget
    rw [hnode]
    exact .inr ⟨node, c, rfl, rfl, rfl⟩
  | some text =>
    have h := q.asks_target htarget
    dsimp only
    cases hread : Path.read text with
    | error e => exact .inl ⟨e, (h.result_eq_error_iff (some c) e).2 hread, h.cache (some c)⟩
    | ok p =>
      obtain ⟨node, hnode⟩ := h.answer p (some c) hread
      exact .inr ⟨node, _, hnode, h.cache (some c), rfl⟩

variable [Numeric ν] [Numeric μ]

mutual

theorem runStep_cache (q : Query ν) (c : PathCache) (step : Step) :
    (q.runStep (some c) step).reply.cache = some (c.run step.calls) := by
  match step with
  | .ask question path => exact (q.asks_answer path question).cache (some c)
  | .path text => rfl
  | .root => rfl
  | .rootArray => rfl
  | .clear => rfl
  | .nested target steps =>
    simp only [runStep, Step.calls]
    rcases q.target_calls target c (Step.callsAll steps) with
      ⟨e, hresult, hcache⟩ | ⟨node, after, hresult, hcache, hafter⟩
    · simp only [hresult, Record.reply, hcache]
    · have hrun := runSteps_cache (ofOption node).value after steps
      simp only [hresult, Record.reply, hcache, hrun, hafter]

theorem runSteps_cache (q : Query ν) (c : PathCache) (steps : List Step) :
    (q.runSteps (some c) steps).2 = some (c.run (Step.callsAll steps)) := by
  match steps with
  | [] => rfl
  | step :: steps =>
    have hrest := runSteps_cache q (c.run step.calls) steps
    simp only [runSteps, runStep_cache q c step, hrest, Step.callsAll, PathCache.run_append]

end

/-- Two runs of the same steps, on any two queries with caches of equal capacity and equal entries:
every step, nested ones included, finds its text held in both or in neither, and leaves the same
cache in both. The cache after the run is the one after the calls of the steps, which do not depend
on a tree. -/
theorem runSteps_usage_eq (q : Query ν) (r : Query μ) {first second : PathCache}
    (capacity : first.capacity = second.capacity) (entries : first.entries = second.entries)
    (steps : List Step) :
    Record.usageAll (q.runSteps (some first) steps).1 =
      Record.usageAll (r.runSteps (some second) steps).1 ∧
    (q.runSteps (some first) steps).2 = some (first.run (Step.callsAll steps)) ∧
    (r.runSteps (some second) steps).2 = some (first.run (Step.callsAll steps)) := by
  have hsame : first = second := by
    cases first
    cases second
    simp_all
  subst hsame
  exact ⟨(runSteps_usage q r (some first) steps).1, runSteps_cache q first steps,
    runSteps_cache r first steps⟩

/-- A nested script asks the same texts of an object and of nothing, and what it makes room for is
the same: the oldest text goes, although it was found on the way. -/
theorem runSteps_usage_eq_neutral :
    ((PathCache.empty 2).run [.fetch "a", .fetch "c[", .fetch "b"]).capacity =
      ((PathCache.empty 2).run [.fetch "a", .fetch "b"]).capacity ∧
    ((PathCache.empty 2).run [.fetch "a", .fetch "c[", .fetch "b"]).entries =
      ((PathCache.empty 2).run [.fetch "a", .fetch "b"]).entries ∧
    Record.usageAll ((⟨some (.object [("a", .object [("b", .null)])])⟩ : Query Number).runSteps
        (some ((PathCache.empty 2).run [.fetch "a", .fetch "c[", .fetch "b"]))
        [.nested (.object "a")
          [.ask .node "b", .ask .contains "c", .nested (.node "a[") [.clear]]]).1 =
      Record.usageAll ((neutral : Query Json.Number).runSteps
        (some ((PathCache.empty 2).run [.fetch "a", .fetch "b"]))
        [.nested (.object "a")
          [.ask .node "b", .ask .contains "c", .nested (.node "a[") [.clear]]]).1 ∧
    (((PathCache.empty 2).run [.fetch "a", .fetch "c[", .fetch "b"]).run (Step.callsAll
      [.nested (.object "a") [.ask .node "b", .ask .contains "c",
        .nested (.node "a[") [.clear]]])).keys = ["b", "c"] := by
  have hcapacity : ((PathCache.empty 2).run [.fetch "a", .fetch "c[", .fetch "b"]).capacity =
      ((PathCache.empty 2).run [.fetch "a", .fetch "b"]).capacity := rfl
  have hentries : ((PathCache.empty 2).run [.fetch "a", .fetch "c[", .fetch "b"]).entries =
      ((PathCache.empty 2).run [.fetch "a", .fetch "b"]).entries := rfl
  exact ⟨hcapacity, hentries, (runSteps_usage_eq _ _ hcapacity hentries _).1, by decide +kernel⟩

end Query

end TreePath
