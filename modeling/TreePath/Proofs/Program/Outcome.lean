import TreePath.Program
import TreePath.Proofs.Render.Line

/-!
How a run of the program ends: with one line, or with the report of the first thing that fails. Of
the settings only the style of the output matters, and it matters only where the command line leaves
it open.
-/

namespace TreePath

namespace Program

/-- The request comes to the line: the text is there, it has a value, and the value has the line at
the path. -/
def Prints (s : Surroundings) (settings : Settings) (i : Invocation) (text : String) : Prop :=
  ∃ input value, loadText s i.file = .ok input ∧ Json.read? input = some value ∧
    ∀ cache, render (Query.ofTree value).value i.path i.kind i.fallback (style settings i) cache =
      .ok text

/-- The failure is the first on the way to a line: no text, no value in the text, a default that is
refused, a faulty path. -/
inductive Fails (s : Surroundings) (i : Invocation) : Failure → Prop where
  | load {e : LoadError} (missing : loadText s i.file = .error e) : Fails s i (.load e)
  | json {input : String} (loads : loadText s i.file = .ok input)
      (malformed : Json.read? input = none) : Fails s i .json
  | fallback {input : String} {value : Json.Value} {e : RenderError}
      (loads : loadText s i.file = .ok input) (reads : Json.read? input = some value)
      (refused : RefusesDefault i.kind i.fallback e) : Fails s i (.query i.path e)
  | path {input : String} {value : Json.Value} {e : PathError}
      (loads : loadText s i.file = .ok input) (reads : Json.read? input = some value)
      (accepted : ∀ e, ¬ RefusesDefault i.kind i.fallback e) (faulty : Path.read i.path = .error e) :
      Fails s i (.query i.path (.path e))

/-- No settings can be had: there is no place for them, or no text in it, or no settings in the
text. -/
def NoSettings (s : Surroundings) : Prop :=
  ∀ path text, Settings.path? s.home = some path → (s.file path).text? = some text →
    Settings.read? text = none

def settings (s : Surroundings) : Settings := (Settings.loadFrom s.home s.file).value

theorem settings_of_noSettings {s : Surroundings} (h : NoSettings s) : settings s = .default := by
  unfold settings Settings.loadFrom
  cases hpath : Settings.path? s.home with
  | none => rfl
  | some path =>
    simp only [Settings.load]
    cases htext : (s.file path).text? with
    | none => rfl
    | some text =>
      simp only [h path text hpath htext]

section Line

variable {s : Surroundings} (t : Settings) {i : Invocation}

theorem line_of_missing {e : LoadError} (missing : loadText s i.file = .error e) :
    line s t i = .error (.load e) := by
  rw [line, missing]

theorem line_of_malformed {input : String} (loads : loadText s i.file = .ok input)
    (malformed : Json.read? input = none) : line s t i = .error .json := by
  simp only [line, loads, malformed]

/-- The cache of the program is of no account for its line. -/
theorem line_of_reads {input : String} {value : Json.Value} (loads : loadText s i.file = .ok input)
    (reads : Json.read? input = some value) (cache : Option PathCache) :
    line s t i = (render (Query.ofTree value).value i.path i.kind i.fallback (style t i)
      cache).mapError (.query i.path) := by
  simp only [line, loads, reads]
  rw [render_cache_eq]

theorem line_of_prints {text : String} (h : Prints s t i text) : line s t i = .ok text := by
  obtain ⟨input, value, loads, reads, hrender⟩ := h
  rw [line_of_reads t loads reads none, hrender none]
  rfl

theorem line_of_fails {f : Failure} (h : Fails s i f) : line s t i = .error f := by
  cases h with
  | load missing => exact line_of_missing t missing
  | json loads malformed => exact line_of_malformed t loads malformed
  | fallback loads reads refused =>
    rw [line_of_reads t loads reads none, (render_eq_error_iff _ _ _ _ _).2 (.inl refused)]
    rfl
  | path loads reads accepted faulty =>
    rw [line_of_reads t loads reads none,
      (render_eq_error_iff _ _ _ _ _).2 (.inr ⟨accepted, _, faulty, rfl⟩)]
    rfl

/-- A request comes to a line, or there is a first thing that fails. -/
theorem prints_or_fails (s : Surroundings) (i : Invocation) :
    (∃ text, Prints s t i text) ∨ ∃ f, Fails s i f := by
  cases loads : loadText s i.file with
  | error e => exact .inr ⟨_, .load loads⟩
  | ok input =>
    cases reads : Json.read? input with
    | none => exact .inr ⟨_, .json loads reads⟩
    | some value =>
      cases hrender : render (Query.ofTree value).value i.path i.kind i.fallback (style t i) none with
      | ok text =>
        exact .inl ⟨text, input, value, loads, reads, fun cache => by rw [← hrender, render_cache_eq]⟩
      | error e =>
        rcases (render_eq_error_iff _ _ _ _ _).1 hrender with
          refused | ⟨accepted, cause, faulty, -⟩
        · exact .inr ⟨_, .fallback loads reads refused⟩
        · exact .inr ⟨_, .path loads reads accepted faulty⟩

end Line

def outcome : Except Failure String → Outcome
  | .ok text => ⟨0, text ++ "\n", ""⟩
  | .error f => ⟨1, "", f.report ++ "\n"⟩

theorem run_of_print {args : List String} {i : Invocation}
    (h : CommandLine.read args = .ok (.print i)) (s : Surroundings) :
    run s args = outcome (line s (settings s) i) := by
  simp only [run, h]
  unfold settings
  cases line s (Settings.loadFrom s.home s.file).value i <;> rfl

/-- The settings matter for a line by way of its style only, and the style is compact in any case
where the command line asks for it. -/
theorem line_congr {s other : Surroundings} {i : Invocation} {t u : Settings}
    (same : loadText other i.file = loadText s i.file)
    (styles : i.compact = true ∨ u.prettyOutput = t.prettyOutput) :
    line other u i = line s t i := by
  have hstyle : style u i = style t i := by
    rcases styles with h | h <;> simp [style, h]
  cases loads : loadText s i.file with
  | error e => rw [line_of_missing u (same.trans loads), line_of_missing t loads]
  | ok input =>
    cases reads : Json.read? input with
    | none =>
      rw [line_of_malformed u (same.trans loads) reads, line_of_malformed t loads reads]
    | some value =>
      rw [line_of_reads u (same.trans loads) reads none, line_of_reads t loads reads none, hstyle]

/-- A run with a command line in order prints exactly what the request comes to, and a line break
behind it. Where the request comes to no line, nothing is printed and the first failure is reported.
Runs on the same input end alike if their settings agree on indentation or the command line decides
it, whatever else the settings are; and without settings a run ends as with the default ones. -/
theorem run_prints_or_reports (s : Surroundings) {args : List String} {i : Invocation}
    (h : CommandLine.read args = .ok (.print i)) :
    (∀ text, run s args = ⟨0, text ++ "\n", ""⟩ ↔ Prints s (settings s) i text) ∧
    ((∀ text, ¬ Prints s (settings s) i text) →
      ∃ f, Fails s i f ∧ run s args = ⟨1, "", f.report ++ "\n"⟩) ∧
    (∀ f, Fails s i f →
      run s args = ⟨1, "", f.report ++ "\n"⟩ ∧ ∀ other, Fails s i other → other = f) ∧
    (∀ other : Surroundings, loadText other i.file = loadText s i.file →
      i.compact = true ∨ (settings other).prettyOutput = (settings s).prettyOutput →
        run other args = run s args) ∧
    (∀ other : Surroundings, loadText other i.file = loadText s i.file →
      NoSettings s → settings other = .default → run other args = run s args) := by
  have hrun := run_of_print h
  have hfails : ∀ f, Fails s i f → run s args = ⟨1, "", f.report ++ "\n"⟩ := fun f hf => by
    rw [hrun, line_of_fails _ hf]
    rfl
  have hcongr : ∀ other : Surroundings, loadText other i.file = loadText s i.file →
      i.compact = true ∨ (settings other).prettyOutput = (settings s).prettyOutput →
        run other args = run s args := fun other same styles => by
    rw [hrun, hrun, line_congr same styles]
  refine ⟨?_, ?_, ?_, hcongr, ?_⟩
  · intro text
    constructor
    · intro hprint
      rcases prints_or_fails (settings s) s i with ⟨other, hother⟩ | ⟨f, hf⟩
      · rw [hrun, line_of_prints _ hother] at hprint
        have houtput : other ++ "\n" = text ++ "\n" := (Outcome.mk.inj hprint).2.1
        rw [← String.append_left_inj "\n" |>.1 houtput]
        exact hother
      · rw [hfails f hf] at hprint
        exact absurd (Outcome.mk.inj hprint).1 (by decide)
    · intro hprint
      rw [hrun, line_of_prints _ hprint]
      rfl
  · intro hnone
    rcases prints_or_fails (settings s) s i with ⟨text, htext⟩ | ⟨f, hf⟩
    · exact absurd htext (hnone text)
    · exact ⟨f, hf, hfails f hf⟩
  · intro f hf
    refine ⟨hfails f hf, fun other hother => ?_⟩
    have hsame := (line_of_fails (settings s) hother).symm.trans (line_of_fails (settings s) hf)
    exact Except.error.inj hsame
  · intro other same hno hdefault
    exact hcongr other same (.inr (by rw [hdefault, settings_of_noSettings hno]))

/-- A malformed default is reported before a malformed path, and settings that cannot be read are of
no account. -/
theorem run_prints_or_reports_default :
    CommandLine.read ["a[", "--as=int", "-dx"] =
      .ok (.print ⟨"a[", none, .integer, some "x", false⟩) ∧
    run ⟨some "/h", fun _ => .file "pretty_output = 1".toUTF8, "[]".toUTF8⟩
      ["a[", "--as=int", "-dx"] =
      ⟨1, "", (Failure.query "a[" (.integerDefault .invalidDigit)).report ++ "\n"⟩ ∧
    run ⟨none, fun _ => .missing, "[]".toUTF8⟩ ["a[", "--as=int", "-dx"] =
      run ⟨some "/h", fun _ => .file "pretty_output = 1".toUTF8, "[]".toUTF8⟩
        ["a[", "--as=int", "-dx"] := by
  have h : CommandLine.read ["a[", "--as=int", "-dx"] =
      .ok (.print ⟨"a[", none, .integer, some "x", false⟩) := rfl
  obtain ⟨-, -, hfails, -, hdefault⟩ := run_prints_or_reports
    ⟨some "/h", fun _ => .file "pretty_output = 1".toUTF8, "[]".toUTF8⟩ h
  refine ⟨h, (hfails _ ?_).1, hdefault _ rfl ?_ rfl⟩
  · exact @Fails.fallback _ _ "[]" (.array []) _ rfl rfl (.integer "x" .invalidDigit rfl)
  · intro path text _ htext
    obtain rfl := Option.some.inj htext
    decide +kernel

end Program

end TreePath
