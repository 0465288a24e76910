import TreePath.Proofs.Files.Load
import TreePath.Proofs.Toml.Table
import TreePath.Settings

/-!
Settings from a file: all of them or none. A text whose fields have the right types gives the fields
that are there and the defaults of the others, whatever else it holds and in whatever order; every
other text gives the defaults alone, with one warning; and where there is no text, the defaults are
taken in silence.
-/

namespace TreePath

namespace Settings

/-- The value of a field: what stands under its key, or its default where the key is absent. -/
inductive Holds {α : Type} (table : Toml.Table) (key : String) (fallback : α)
    (Means : Toml.Value → α → Prop) : α → Prop where
  | absent (missing : key ∉ table.map Prod.fst) : Holds table key fallback Means fallback
  | present {value : Toml.Value} {a : α} (entry : (key, value) ∈ table) (means : Means value a) :
      Holds table key fallback Means a

/-- The integer is the number of paths, which is not negative. -/
def MeansCapacity (value : Toml.Value) (capacity : UInt64) : Prop :=
  ∃ n : Int64, value = .integer n ∧ n.toInt = capacity.toNat

def MeansString (value : Toml.Value) (s : String) : Prop := value = .string s

def MeansBoolean (value : Toml.Value) (b : Bool) : Prop := value = .boolean b

/-- Each field has its value in the table. -/
structure Describes (table : Toml.Table) (s : Settings) : Prop where
  cacheCapacity :
    Holds table "path_cache_capacity" default.cacheCapacity MeansCapacity s.cacheCapacity
  logFilter : Holds table "log_filter" default.logFilter MeansString s.logFilter
  prettyOutput : Holds table "pretty_output" default.prettyOutput MeansBoolean s.prettyOutput

/-- What stands under the key of a field is of the type of the field. -/
structure WellTyped (table : Toml.Table) : Prop where
  cacheCapacity : ∀ value, ("path_cache_capacity", value) ∈ table →
    ∃ n : Int64, value = .integer n ∧ 0 ≤ n.toInt
  logFilter : ∀ value, ("log_filter", value) ∈ table → ∃ s, value = .string s
  prettyOutput : ∀ value, ("pretty_output", value) ∈ table → ∃ b, value = .boolean b

/-- What is loaded, by what stands under the name of the file. -/
inductive Loads (path : String) : FileState → Logged Settings → Prop where
  | missing : Loads path .missing ⟨default, []⟩
  | directory : Loads path .directory ⟨default, []⟩
  | notText {bytes : ByteArray} (invalid : ¬ bytes.IsValidUTF8) :
      Loads path (.file bytes) ⟨default, []⟩
  | described {text : String} {table : Toml.Table} {s : Settings}
      (reads : Toml.read? text = some table) (describes : Describes table s) :
      Loads path (.file text.toUTF8) ⟨s, []⟩
  | malformed {text : String} (malformed : Toml.read? text = none) :
      Loads path (.file text.toUTF8) ⟨default, [.settingsIgnored path]⟩
  | illTyped {text : String} {table : Toml.Table} (reads : Toml.read? text = some table)
      (illTyped : ¬ WellTyped table) :
      Loads path (.file text.toUTF8) ⟨default, [.settingsIgnored path]⟩

theorem capacity?_eq_some_iff {value : Toml.Value} {capacity : UInt64} :
    capacity? value = some capacity ↔ MeansCapacity value capacity := by
  cases value with
  | integer n =>
    have hmeans : MeansCapacity (.integer n) capacity ↔ n.toInt = capacity.toNat :=
      ⟨fun ⟨m, hm, h⟩ => Toml.Value.integer.inj hm ▸ h, fun h => ⟨n, rfl, h⟩⟩
    rw [hmeans, capacity?]
    by_cases hn : 0 ≤ n.toInt
    · have hword : n.toUInt64.toNat = n.toInt.toNat :=
        Int64.toNat_toUInt64_of_le (Int64.le_iff_toInt_le.2 hn)
      rw [if_pos hn, Option.some.injEq, ← UInt64.toNat_inj, hword]
      omega
    · rw [if_neg hn]
      exact iff_of_false (by simp) (by omega)
  | _ => simp [capacity?, MeansCapacity]

theorem exists_meansCapacity_iff {value : Toml.Value} :
    (∃ capacity, MeansCapacity value capacity) ↔
      ∃ n : Int64, value = .integer n ∧ 0 ≤ n.toInt := by
  constructor
  · rintro ⟨capacity, n, rfl, hn⟩
    exact ⟨n, rfl, by omega⟩
  · rintro ⟨n, rfl, hn⟩
    have hlt := Int64.toInt_lt n
    refine ⟨UInt64.ofNat n.toInt.toNat, n, rfl, ?_⟩
    have hsmall : n.toInt.toNat < UInt64.size := by
      rw [UInt64.size]
      omega
    rw [UInt64.toNat_ofNat_of_lt' hsmall]
    omega

theorem string?_eq_some_iff {value : Toml.Value} {s : String} :
    string? value = some s ↔ MeansString value s := by
  cases value <;> simp [string?, MeansString]

theorem boolean?_eq_some_iff {value : Toml.Value} {b : Bool} :
    boolean? value = some b ↔ MeansBoolean value b := by
  cases value <;> simp [boolean?, MeansBoolean]

section Field

variable {α : Type} {table : Toml.Table} {key : String} {fallback : α}
  {read : Toml.Value → Option α} {Means : Toml.Value → α → Prop}

/-- A field is read as the value that it has in the table. -/
theorem field?_eq_some_iff (keys : (table.map Prod.fst).Nodup)
    (hread : ∀ value a, read value = some a ↔ Means value a) {a : α} :
    field? table key fallback read = some a ↔ Holds table key fallback Means a := by
  rw [field?]
  cases hlookup : table.lookup key with
  | none =>
    have hmissing := Keyed.lookup_eq_none_iff.1 hlookup
    constructor
    · intro h
      rw [← Option.some.inj h]
      exact .absent hmissing
    · rintro (_ | ⟨entry, -⟩)
      · rfl
      · exact absurd (List.mem_map_of_mem entry) hmissing
  | some value =>
    constructor
    · intro h
      exact .present (Keyed.mem_of_lookup hlookup) ((hread value a).1 h)
    · rintro (hmissing | ⟨entry, means⟩)
      · exact absurd (Keyed.mem_keys_of_lookup hlookup) hmissing
      · have hvalue := hlookup.symm.trans (Keyed.lookup_of_mem keys entry)
        rw [Option.some.inj hvalue]
        exact (hread _ a).2 means

/-- A field has a value unless something of another type stands under its key. -/
theorem exists_holds_iff (keys : (table.map Prod.fst).Nodup) :
    (∃ a, Holds table key fallback Means a) ↔
      ∀ value, (key, value) ∈ table → ∃ a, Means value a := by
  constructor
  · rintro ⟨a, h⟩ value hvalue
    cases h with
    | absent missing => exact absurd (List.mem_map_of_mem hvalue) missing
    | @present held _ entry means =>
      have hheld : table.lookup key = some held := Keyed.lookup_of_mem keys entry
      rw [Keyed.lookup_of_mem keys hvalue] at hheld
      obtain rfl : value = held := Option.some.inj hheld
      exact ⟨a, means⟩
  · intro h
    by_cases hkey : key ∈ table.map Prod.fst
    · obtain ⟨⟨_, value⟩, entry, rfl⟩ := List.mem_map.1 hkey
      obtain ⟨a, means⟩ := h value entry
      exact ⟨a, .present entry means⟩
    · exact ⟨fallback, .absent hkey⟩

/-- Only what stands under the key of a field matters for it. -/
theorem Holds.congr {other : Toml.Table} {a : α}
    (same : ∀ value, (key, value) ∈ other ↔ (key, value) ∈ table)
    (h : Holds table key fallback Means a) : Holds other key fallback Means a := by
  cases h with
  | absent missing =>
    refine .absent fun hkey => missing ?_
    obtain ⟨⟨_, value⟩, entry, rfl⟩ := List.mem_map.1 hkey
    exact List.mem_map_of_mem ((same value).1 entry)
  | present entry means => exact .present ((same _).2 entry) means

end Field

section Table

variable {table : Toml.Table} (keys : (table.map Prod.fst).Nodup)

include keys

theorem ofTable?_eq_some_iff {s : Settings} : ofTable? table = some s ↔ Describes table s := by
  have hcapacity (a : UInt64) :
      field? table "path_cache_capacity" default.cacheCapacity capacity? = some a ↔
        Holds table "path_cache_capacity" default.cacheCapacity MeansCapacity a :=
    field?_eq_some_iff keys fun _ _ => capacity?_eq_some_iff
  have hfilter (a : String) : field? table "log_filter" default.logFilter string? = some a ↔
      Holds table "log_filter" default.logFilter MeansString a :=
    field?_eq_some_iff keys fun _ _ => string?_eq_some_iff
  have hpretty (a : Bool) : field? table "pretty_output" default.prettyOutput boolean? = some a ↔
      Holds table "pretty_output" default.prettyOutput MeansBoolean a :=
    field?_eq_some_iff keys fun _ _ => boolean?_eq_some_iff
  constructor
  · intro h
    obtain ⟨capacity, hc, h⟩ := Option.bind_eq_some_iff.1 h
    obtain ⟨filter, hf, h⟩ := Option.bind_eq_some_iff.1 h
    obtain ⟨pretty, hp, h⟩ := Option.bind_eq_some_iff.1 h
    obtain rfl := Option.some.inj h
    exact ⟨(hcapacity _).1 hc, (hfilter _).1 hf, (hpretty _).1 hp⟩
  · rintro ⟨hc, hf, hp⟩
    rw [ofTable?, (hcapacity _).2 hc, (hfilter _).2 hf, (hpretty _).2 hp]
    rfl

theorem exists_describes_iff : (∃ s, Describes table s) ↔ WellTyped table := by
  constructor
  · rintro ⟨s, hc, hf, hp⟩
    exact ⟨fun value entry => exists_meansCapacity_iff.1 ((exists_holds_iff keys).1 ⟨_, hc⟩ value entry),
      (exists_holds_iff keys).1 ⟨_, hf⟩, (exists_holds_iff keys).1 ⟨_, hp⟩⟩
  · rintro ⟨hc, hf, hp⟩
    obtain ⟨capacity, hcapacity⟩ := (exists_holds_iff keys).2 fun value entry =>
      exists_meansCapacity_iff.2 (hc value entry)
    obtain ⟨filter, hfilter⟩ := (exists_holds_iff keys).2 hf
    obtain ⟨pretty, hpretty⟩ := (exists_holds_iff keys).2 hp
    exact ⟨⟨capacity, filter, pretty⟩, hcapacity, hfilter, hpretty⟩

end Table

section Load

variable (path : String) {text : String} {table : Toml.Table}

theorem text?_toUTF8 (text : String) : (FileState.file text.toUTF8).text? = some text :=
  fromUTF8?_eq_some_iff.2 rfl

theorem load_of_text?_eq_none {state : FileState} (h : state.text? = none) :
    load path state = ⟨default, []⟩ := by
  rw [load, h]
  rfl

theorem load_toUTF8 (text : String) : load path (.file text.toUTF8) =
    match read? text with
    | some s => ⟨s, []⟩
    | none => ⟨default, [.settingsIgnored path]⟩ := by
  rw [load, text?_toUTF8]
  rfl

/-- Settings are read from a text exactly where its table describes them. -/
theorem read?_eq_some_iff {s : Settings} (reads : Toml.read? text = some table) :
    read? text = some s ↔ Describes table s := by
  rw [read?, reads, Option.bind_some, ofTable?_eq_some_iff (Toml.nodup_keys_of_read? reads)]

theorem read?_eq_none_iff (reads : Toml.read? text = some table) :
    read? text = none ↔ ¬ WellTyped table := by
  rw [← exists_describes_iff (Toml.nodup_keys_of_read? reads), Option.eq_none_iff_forall_ne_some,
    not_exists]
  exact forall_congr' fun s => not_congr (read?_eq_some_iff reads)

theorem load_of_loads {state : FileState} {r : Logged Settings} (h : Loads path state r) :
    load path state = r := by
  cases h with
  | missing => rfl
  | directory => rfl
  | notText invalid => exact load_of_text?_eq_none path (dif_neg invalid)
  | described reads describes => rw [load_toUTF8, (read?_eq_some_iff reads).2 describes]
  | malformed malformed =>
    rw [load_toUTF8, read?, malformed]
    rfl
  | illTyped reads illTyped => rw [load_toUTF8, (read?_eq_none_iff reads).2 illTyped]

/-- Something is loaded, whatever stands under the name of the file. -/
theorem exists_loads (state : FileState) : ∃ r, Loads path state r := by
  cases state with
  | missing => exact ⟨_, .missing⟩
  | directory => exact ⟨_, .directory⟩
  | file bytes =>
    by_cases valid : bytes.IsValidUTF8
    · obtain ⟨text, rfl⟩ : ∃ text : String, text.toUTF8 = bytes := ⟨.fromUTF8 bytes valid, rfl⟩
      cases reads : Toml.read? text with
      | none => exact ⟨_, .malformed reads⟩
      | some table =>
        by_cases typed : WellTyped table
        · obtain ⟨s, describes⟩ := (exists_describes_iff (Toml.nodup_keys_of_read? reads)).2 typed
          exact ⟨_, .described reads describes⟩
        · exact ⟨_, .illTyped reads typed⟩
    · exact ⟨_, .notText valid⟩

end Load

def keys : List String := ["path_cache_capacity", "log_filter", "pretty_output"]

/-- Other entries, and the order of the entries, are of no account. -/
theorem Describes.congr {table other : Toml.Table} {s : Settings}
    (same : ∀ key ∈ keys, ∀ value, (key, value) ∈ other ↔ (key, value) ∈ table)
    (h : Describes table s) : Describes other s where
  cacheCapacity := h.cacheCapacity.congr (same _ (by simp [keys]))
  logFilter := h.logFilter.congr (same _ (by simp [keys]))
  prettyOutput := h.prettyOutput.congr (same _ (by simp [keys]))

/-- What a file gives is settled by what stands under its name: the defaults in silence where there is
no text, the settings that the text describes where its fields are well typed, and else the defaults
with one warning that names the file. Well typed tables are those that describe settings, only one
each; texts with the same entries under the keys of the fields are loaded alike. -/
theorem load_all_or_nothing (path : String) (state : FileState) :
    (∀ r, load path state = r ↔ Loads path state r) ∧
    (∀ text table, Toml.read? text = some table → (WellTyped table ↔ ∃! s, Describes table s)) ∧
    (∀ text other table entries, Toml.read? text = some table → Toml.read? other = some entries →
      (∀ key ∈ keys, ∀ value, (key, value) ∈ entries ↔ (key, value) ∈ table) →
      load path (.file other.toUTF8) = load path (.file text.toUTF8)) ∧
    (Event.settingsIgnored path).level = .warn ∧
    (Event.settingsIgnored path).message = "ignoring invalid config file" ∧
    (Event.settingsIgnored path).fields = [("path", path)] := by
  refine ⟨?_, ?_, ?_, rfl, rfl, rfl⟩
  · intro r
    constructor
    · rintro rfl
      obtain ⟨r, hloads⟩ := exists_loads path state
      rwa [load_of_loads path hloads]
    · exact load_of_loads path
  · intro text table reads
    rw [← exists_describes_iff (Toml.nodup_keys_of_read? reads)]
    constructor
    · rintro ⟨s, describes⟩
      refine ⟨s, describes, fun other hother => ?_⟩
      rw [← read?_eq_some_iff reads] at describes hother
      exact Option.some.inj (hother.symm.trans describes)
    · rintro ⟨s, describes, -⟩
      exact ⟨s, describes⟩
  · intro text other table entries reads others same
    have hread : read? other = read? text := by
      apply Option.ext
      intro s
      rw [read?_eq_some_iff reads, read?_eq_some_iff others]
      exact ⟨.congr fun key hkey value => (same key hkey value).symm, .congr same⟩
    rw [load_toUTF8, load_toUTF8, hread]

/-- A filter is not kept beside a capacity that is negative. Without that line it is, and the table and
the key that are no part of the settings do not matter. -/
theorem load_all_or_nothing_negative :
    load "c" (.file "log_filter = 'x'\npath_cache_capacity = -1".toUTF8) =
      ⟨default, [.settingsIgnored "c"]⟩ ∧
    load "c" (.file "level = 7\nlog_filter = 'x'\n[log]\npretty_output = 0".toUTF8) =
      ⟨⟨256, "x", true⟩, []⟩ := by
  -- Values nest tables and have no decidable equality: the tables stay unnamed, the settings do not.
  constructor
  · have hsome : (Toml.read? "log_filter = 'x'\npath_cache_capacity = -1").isSome := by
      decide +kernel
    obtain ⟨table, reads⟩ := Option.isSome_iff_exists.1 hsome
    have hnone : read? "log_filter = 'x'\npath_cache_capacity = -1" = none := by decide +kernel
    exact ((load_all_or_nothing "c" _).1 _).2 (.illTyped reads ((read?_eq_none_iff reads).1 hnone))
  · have hsome : (Toml.read? "level = 7\nlog_filter = 'x'\n[log]\npretty_output = 0").isSome := by
      decide +kernel
    obtain ⟨table, reads⟩ := Option.isSome_iff_exists.1 hsome
    have hread : read? "level = 7\nlog_filter = 'x'\n[log]\npretty_output = 0" =
        some ⟨256, "x", true⟩ := by decide +kernel
    exact ((load_all_or_nothing "c" _).1 _).2 (.described reads ((read?_eq_some_iff reads).1 hread))

end Settings

end TreePath
