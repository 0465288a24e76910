import TreePath.Proofs.Json.Builder
import TreePath.Proofs.Lists
import TreePath.Proofs.Tree.Route

/-!
What the builder builds: trees whose objects repeat no key and whose containers are nested no deeper
than is allowed. Every place that the builder reaches holds nothing else, so that its result does.
-/

namespace TreePath

namespace Tree

variable {ν : Type}

mutual

def depth : Tree ν → Nat
  | .null => 0
  | .boolean _ => 0
  | .number _ => 0
  | .string _ => 0
  | .array items => itemsDepth items + 1
  | .object entries => entriesDepth entries + 1

def itemsDepth : List (Tree ν) → Nat
  | [] => 0
  | t :: rest => max t.depth (itemsDepth rest)

def entriesDepth : List (String × Tree ν) → Nat
  | [] => 0
  | (_, t) :: rest => max t.depth (entriesDepth rest)

end

/-- Items are as deep as the deepest of them. -/
theorem add_itemsDepth_le_iff {items : List (Tree ν)} {level limit : Nat} (h : level ≤ limit) :
    level + itemsDepth items ≤ limit ↔ ∀ t ∈ items, level + t.depth ≤ limit := by
  induction items with
  | nil => simpa [itemsDepth] using h
  | cons t rest ih =>
    rw [itemsDepth, List.forall_mem_cons, ← ih]
    omega

theorem add_entriesDepth_le_iff {entries : Entries ν} {level limit : Nat} (h : level ≤ limit) :
    level + entriesDepth entries ≤ limit ↔ ∀ e ∈ entries, level + e.2.depth ≤ limit := by
  induction entries with
  | nil => simpa [entriesDepth] using h
  | cons e rest ih =>
    rw [entriesDepth, List.forall_mem_cons, ← ih]
    omega

end Tree

namespace Json

variable {ν : Type}

/-- A tree that may stand inside `level` containers: no object repeats a key, and the containers are
nested no deeper than is allowed. -/
structure Fits (level : Nat) (t : Tree ν) : Prop where
  keys : t.DistinctKeys
  depth : level + t.depth ≤ maxDepth

theorem Fits.mono {level lower : Nat} {t : Tree ν} (h : Fits level t) (hle : lower ≤ level) :
    Fits lower t :=
  ⟨h.keys, by have hdepth := h.depth; omega⟩

theorem fits_array_iff {level : Nat} {items : List (Tree ν)} :
    Fits level (.array items) ↔ level < maxDepth ∧ ∀ t ∈ items, Fits (level + 1) t := by
  constructor
  · rintro ⟨hkeys, hdepth⟩
    rw [Tree.depth, ← Nat.add_assoc, Nat.add_right_comm] at hdepth
    have hlevel : level + 1 ≤ maxDepth := by omega
    have hchildren := (Tree.add_itemsDepth_le_iff hlevel).1 hdepth
    exact ⟨hlevel, fun t ht => ⟨Tree.distinctKeys_array_iff.1 hkeys t ht, hchildren t ht⟩⟩
  · rintro ⟨hlevel, hchildren⟩
    refine ⟨Tree.distinctKeys_array_iff.2 fun t ht => (hchildren t ht).keys, ?_⟩
    rw [Tree.depth, ← Nat.add_assoc, Nat.add_right_comm]
    exact (Tree.add_itemsDepth_le_iff hlevel).2 fun t ht => (hchildren t ht).depth

/-- Entries that may stand in an object inside `level - 1` others. -/
structure FitEntries (level : Nat) (entries : Entries ν) : Prop where
  keys : (entries.map Prod.fst).Nodup
  children : ∀ e ∈ entries, Fits level e.2

theorem fits_object_iff {level : Nat} {entries : Entries ν} :
    Fits level (.object entries) ↔ level < maxDepth ∧ FitEntries (level + 1) entries := by
  constructor
  · rintro ⟨hkeys, hdepth⟩
    obtain ⟨hnodup, hdistinct⟩ := Tree.distinctKeys_object_iff.1 hkeys
    rw [Tree.depth, ← Nat.add_assoc, Nat.add_right_comm] at hdepth
    have hlevel : level + 1 ≤ maxDepth := by omega
    have hchildren := (Tree.add_entriesDepth_le_iff hlevel).1 hdepth
    exact ⟨hlevel, hnodup, fun e he => ⟨hdistinct e he, hchildren e he⟩⟩
  · rintro ⟨hlevel, hnodup, hchildren⟩
    refine ⟨Tree.distinctKeys_object_iff.2 ⟨hnodup, fun e he => (hchildren e he).keys⟩, ?_⟩
    rw [Tree.depth, ← Nat.add_assoc, Nat.add_right_comm]
    exact (Tree.add_entriesDepth_le_iff hlevel).2 fun e he => (hchildren e he).depth

/-- A child of a node fits where the node does. -/
theorem Fits.hop? {level : Nat} {t child : Tree ν} {hop : Hop} (h : Fits level t)
    (hchild : t.hop? hop = some child) : Fits level child := by
  cases hop with
  | key name =>
    cases t with
    | object entries =>
      have hmem : (name, child) ∈ entries := Keyed.mem_of_lookup hchild
      exact ((fits_object_iff.1 h).2.children _ hmem).mono (Nat.le_succ level)
    | _ => contradiction
  | position index =>
    cases t with
    | array items =>
      have hmem : child ∈ items := List.mem_of_getElem? hchild
      exact ((fits_array_iff.1 h).2 child hmem).mono (Nat.le_succ level)
    | _ => contradiction

theorem Fits.follow? {level : Nat} {t node : Tree ν} {route : Route} (h : Fits level t)
    (hnode : t.follow? route = some node) : Fits level node := by
  induction route generalizing t with
  | nil => exact Option.some.inj hnode ▸ h
  | cons hop route ih =>
    obtain ⟨child, hchild, hnode⟩ := Option.bind_eq_some_iff.1 hnode
    exact ih (h.hop? hchild) hnode

/-- A node at a path fits where the root does. -/
theorem Fits.at? {level : Nat} {t node : Tree ν} {path : Path} (h : Fits level t)
    (hnode : t.at? path = some node) : Fits level node := by
  rw [Tree.at?_eq_follow?] at hnode
  exact h.follow? hnode

theorem keys_insert (key : String) (t : Tree ν) (entries : Entries ν) :
    (Entries.insert key t entries).map Prod.fst =
      if key ∈ entries.map Prod.fst then entries.map Prod.fst
      else entries.map Prod.fst ++ [key] := by
  induction entries with
  | nil => rfl
  | cons e rest ih =>
    obtain ⟨k, u⟩ := e
    by_cases hk : k = key
    · simp [Entries.insert, hk]
    · have hne : key ≠ k := Ne.symm hk
      simp only [Entries.insert, hk, if_false, List.map_cons, ih, List.mem_cons, hne, false_or]
      split <;> rfl

theorem mem_insert {key : String} {t : Tree ν} {entries : Entries ν} {e : String × Tree ν}
    (h : e ∈ Entries.insert key t entries) : e ∈ entries ∨ e.2 = t := by
  induction entries with
  | nil => exact .inr (congrArg Prod.snd (List.mem_singleton.1 h))
  | cons first rest ih =>
    obtain ⟨k, u⟩ := first
    rw [Entries.insert] at h
    split at h
    · rcases List.mem_cons.1 h with rfl | h
      · exact .inr rfl
      · exact .inl (List.mem_cons_of_mem _ h)
    · rcases List.mem_cons.1 h with rfl | h
      · exact .inl List.mem_cons_self
      · exact (ih h).imp_left (List.mem_cons_of_mem _)

/-- Setting a key repeats none and changes no other value. -/
theorem FitEntries.insert {level : Nat} {entries : Entries ν} {key : String} {t : Tree ν}
    (h : FitEntries level entries) (ht : Fits level t) :
    FitEntries level (Entries.insert key t entries) := by
  refine ⟨?_, fun e he => ?_⟩
  · rw [keys_insert]
    split
    · exact h.keys
    · next hkey =>
      refine List.nodup_append.2 ⟨h.keys, by simp, ?_⟩
      rintro k hk l hl rfl
      exact hkey (List.mem_singleton.1 hl ▸ hk)
  · rcases mem_insert he with he | rfl
    · exact h.children e he
    · exact ht

/-- A container that waits inside `level` others. -/
def Pending.Fit (level : Nat) : Pending ν → Prop
  | .item items => ∀ t ∈ items, Fits (level + 1) t
  | .member entries _ => FitEntries (level + 1) entries

/-- Open containers, innermost first, each with as many around it as are behind it in the list. -/
inductive Open : List (Pending ν) → Prop where
  | nil : Open []
  | cons (pending : Pending ν) (outer : List (Pending ν)) (room : outer.length < maxDepth)
      (fit : pending.Fit outer.length) (around : Open outer) : Open (pending :: outer)

theorem Open.length_le {outer : List (Pending ν)} (h : Open outer) : outer.length ≤ maxDepth := by
  cases h with
  | nil => exact Nat.zero_le _
  | cons pending outer room fit around => exact room

/-- What the builder holds at a place. -/
def Place.Fit : Place ν → Prop
  | .value outer => Open outer
  | .firstItem outer | .firstKey outer => outer.length < maxDepth ∧ Open outer
  | .afterItem items outer => Open (.item items :: outer)
  | .nextKey entries outer | .afterMember entries outer => Open (.member entries "" :: outer)
  | .colon entries key outer => Open (.member entries key :: outer)
  | .complete t => Fits 0 t

namespace Place

theorem fit_accept {t : Tree ν} {outer : List (Pending ν)} (h : Open outer)
    (ht : Fits outer.length t) : (accept t outer).Fit := by
  cases h with
  | nil => exact ht
  | cons pending outer room fit around =>
    cases pending with
    | item items => exact .cons _ _ room (List.forall_mem_cons.2 ⟨ht, fit⟩) around
    | member entries key => exact .cons _ _ room (FitEntries.insert fit ht) around

/-- The first token of a value is a whole value, or opens a container where there is room. -/
theorem fit_start {outer : List (Pending ν)} {token : Token ν} {next : Place ν} (h : Open outer)
    (hnext : start outer token = some next) : next.Fit := by
  have hroom := h.length_le
  cases token with
  | null | boolean | number | string =>
    rw [← Option.some.inj hnext]
    exact fit_accept h ⟨by constructor, hroom⟩
  | arrayStart | objectStart =>
    rw [start] at hnext
    split at hnext
    · next hlevel =>
      rw [← Option.some.inj hnext]
      exact ⟨hlevel, h⟩
    · contradiction
  | _ => contradiction

/-- What one token adds fits where it is put. -/
theorem fit_step {place next : Place ν} {token : Token ν} (h : place.Fit)
    (hnext : place.step token = some next) : next.Fit := by
  cases place with
  | value outer => exact fit_start h hnext
  | firstItem outer =>
    obtain ⟨hlevel, hopen⟩ := h
    by_cases hend : token = .arrayEnd
    · subst hend
      rw [← Option.some.inj hnext]
      exact fit_accept hopen (fits_array_iff.2 ⟨hlevel, by simp⟩)
    · rw [step_firstItem hend] at hnext
      exact fit_start (.cons (.item []) _ hlevel (by simp [Pending.Fit]) hopen) hnext
  | afterItem items outer =>
    cases token with
    | comma =>
      rw [← Option.some.inj hnext]
      exact h
    | arrayEnd =>
      rw [← Option.some.inj hnext]
      obtain ⟨⟩ | ⟨_, _, room, fit, around⟩ := h
      exact fit_accept around (fits_array_iff.2 ⟨room, fun t ht => fit t (List.mem_reverse.1 ht)⟩)
    | _ => contradiction
  | firstKey outer =>
    obtain ⟨hlevel, hopen⟩ := h
    have hempty : FitEntries (outer.length + 1) ([] : Entries ν) := ⟨List.nodup_nil, by simp⟩
    cases token with
    | objectEnd =>
      rw [← Option.some.inj hnext]
      exact fit_accept hopen (fits_object_iff.2 ⟨hlevel, hempty⟩)
    | string key =>
      rw [← Option.some.inj hnext]
      exact .cons (.member [] key) _ hlevel hempty hopen
    | _ => contradiction
  | nextKey entries outer =>
    cases token with
    | string key =>
      rw [← Option.some.inj hnext]
      obtain ⟨⟩ | ⟨_, _, room, fit, around⟩ := h
      exact .cons (.member entries key) _ room fit around
    | _ => contradiction
  | colon entries key outer =>
    cases token with
    | colon =>
      rw [← Option.some.inj hnext]
      exact h
    | _ => contradiction
  | afterMember entries outer =>
    cases token with
    | comma =>
      rw [← Option.some.inj hnext]
      exact h
    | objectEnd =>
      rw [← Option.some.inj hnext]
      obtain ⟨⟩ | ⟨_, _, room, fit, around⟩ := h
      exact fit_accept around (fits_object_iff.2 ⟨room, fit⟩)
    | _ => contradiction
  | complete t => cases token <;> contradiction

theorem fit_run {tokens : List (Token ν)} {place last : Place ν} (h : place.Fit)
    (hlast : tokens.foldlM step place = some last) : last.Fit := by
  induction tokens generalizing place with
  | nil => exact Option.some.inj hlast ▸ h
  | cons token tokens ih =>
    rw [List.foldlM_cons] at hlast
    obtain ⟨next, hnext, hlast⟩ := Option.bind_eq_some_iff.1 hlast
    exact ih (fit_step h hnext) hlast

end Place

/-- Every tree that is built repeats no key and is nested no deeper than is allowed. -/
theorem fits_of_build? {tokens : List (Token ν)} {t : Tree ν} (h : build? tokens = some t) :
    Fits 0 t := by
  obtain ⟨last, hlast, hresult⟩ := Option.bind_eq_some_iff.1 h
  have hfirst : (Place.value [] : Place ν).Fit := Open.nil
  have hfit := Place.fit_run hfirst hlast
  cases last with
  | complete u => exact Option.some.inj hresult ▸ hfit
  | _ => contradiction

/-- The value of a text repeats no key and is nested no deeper than is allowed. -/
theorem fits_of_read? {text : String} {v : Value} (h : read? text = some v) : Fits 0 v := by
  obtain ⟨tokens, -, hbuild⟩ := Option.bind_eq_some_iff.1 h
  exact fits_of_build? hbuild

end Json

end TreePath
