import TreePath.Proofs.Lists
import TreePath.Proofs.Tree.Route

/-!
Trees that grow. A tree extends another where it has the same leaves, with more elements behind those of
an array and more entries beside those of an object, at any depth. What a route leads to stays there and
is itself extended.
-/

namespace TreePath

namespace Tree

variable {ν : Type} {a b t : Tree ν}

/-- The second tree extends the first: a leaf by being the same, an array by being at least as long with
its first elements extended one by one, and an object by having every key with its value extended. -/
inductive Extends : Tree ν → Tree ν → Prop where
  | leaf (t : Tree ν) (childless : t.isContainer = false) : Extends t t
  | array (items others : List (Tree ν)) (length : items.length ≤ others.length)
      (elements : ∀ (i : Nat) (t u : Tree ν), items[i]? = some t → others[i]? = some u →
        Extends t u) :
      Extends (.array items) (.array others)
  | object (entries others : Entries ν) (keys : entries.map Prod.fst ⊆ others.map Prod.fst)
      (values : ∀ (key : String) (t u : Tree ν), entries.lookup key = some t →
        others.lookup key = some u → Extends t u) :
      Extends (.object entries) (.object others)

namespace Extends

theorem kind (h : a.Extends b) : a.kind = b.kind := by
  cases h <;> rfl

theorem eq_of_leaf (h : a.Extends b) (childless : a.isContainer = false) : a = b := by
  cases h with
  | leaf => rfl
  | array => contradiction
  | object => contradiction

/-- The elements of an array stay at their positions, and others come behind them. -/
theorem elements? (h : a.Extends b) {items : List (Tree ν)} (ha : a.elements? = some items) :
    ∃ others, b.elements? = some others ∧ items.length ≤ others.length ∧
      ∀ (i : Nat) (t : Tree ν), items[i]? = some t → ∃ u, others[i]? = some u ∧ t.Extends u := by
  cases h with
  | leaf _ childless => cases a <;> contradiction
  | object => contradiction
  | array items others length elements =>
    obtain rfl := Option.some.inj ha
    refine ⟨others, rfl, length, ?_⟩
    intro i t ht
    obtain ⟨hlt, -⟩ := List.getElem?_eq_some_iff.1 ht
    have hu : others[i]? = some others[i] := List.getElem?_eq_getElem (by omega)
    exact ⟨others[i], hu, elements i t _ ht hu⟩

theorem property? (h : a.Extends b) {name : String} (ha : a.property? name = some t) :
    ∃ u, b.property? name = some u ∧ t.Extends u := by
  cases h with
  | leaf _ childless => cases a <;> contradiction
  | array => contradiction
  | object entries others keys values =>
    obtain ⟨u, hu⟩ : ∃ u, others.lookup name = some u := by
      rw [← Option.ne_none_iff_exists', ne_eq, Keyed.lookup_eq_none_iff, not_not]
      exact keys (Keyed.mem_keys_of_lookup ha)
    exact ⟨u, hu, values name t u ha hu⟩

theorem hop? (h : a.Extends b) {hop : Hop} (ha : a.hop? hop = some t) :
    ∃ u, b.hop? hop = some u ∧ t.Extends u := by
  cases hop with
  | key name => exact h.property? ha
  | position index =>
    obtain ⟨items, hitems, ht⟩ := Option.bind_eq_some_iff.1 ha
    obtain ⟨others, hothers, -, helements⟩ := h.elements? hitems
    obtain ⟨u, hu, htu⟩ := helements index.toNat t ht
    exact ⟨u, Option.bind_eq_some_iff.2 ⟨others, hothers, hu⟩, htu⟩

/-- A route that leads somewhere leads to an extension of it. -/
theorem follow? (h : a.Extends b) {route : Route} (ha : a.follow? route = some t) :
    ∃ u, b.follow? route = some u ∧ t.Extends u := by
  induction route generalizing a b with
  | nil =>
    obtain rfl := Option.some.inj ha
    exact ⟨b, rfl, h⟩
  | cons hop route ih =>
    obtain ⟨child, hchild, hrest⟩ := Option.bind_eq_some_iff.1 ha
    obtain ⟨other, hother, hextends⟩ := h.hop? hchild
    obtain ⟨u, hu, htu⟩ := ih hextends hrest
    exact ⟨u, Option.bind_eq_some_iff.2 ⟨other, hother, hu⟩, htu⟩

/-- A path that leads somewhere leads to an extension of it. -/
theorem at? (h : a.Extends b) {p : Path} (ha : a.at? p = some t) :
    ∃ u, b.at? p = some u ∧ t.Extends u := by
  rw [at?_eq_follow?] at ha ⊢
  exact h.follow? ha

end Extends

/-- Elements that come behind others extend an array. -/
theorem extends_append {items first : List (Tree ν)} (h : List.Forall₂ Extends items first)
    (more : List (Tree ν)) : (array items).Extends (array (first ++ more)) := by
  refine .array items (first ++ more) (by simp [h.length_eq]) ?_
  intro i t u ht hu
  obtain ⟨hlt, rfl⟩ := List.getElem?_eq_some_iff.1 ht
  rw [List.getElem?_append_left (h.length_eq ▸ hlt)] at hu
  obtain ⟨hlt', rfl⟩ := List.getElem?_eq_some_iff.1 hu
  exact h.get hlt hlt'

/-- Entries beside those of an object extend it, wherever they stand. -/
theorem extends_of_entries {entries others : Entries ν}
    (h : ∀ e ∈ entries, ∃ u, others.lookup e.1 = some u ∧ e.2.Extends u) :
    (object entries).Extends (object others) := by
  refine .object entries others ?_ ?_
  · intro key hkey
    obtain ⟨e, he, rfl⟩ := List.mem_map.1 hkey
    obtain ⟨u, hu, -⟩ := h e he
    exact Keyed.mem_keys_of_lookup hu
  · intro key t u ht hu
    obtain ⟨v, hv, htv⟩ := h (key, t) (Keyed.mem_of_lookup ht)
    obtain rfl := Option.some.inj (hv.symm.trans hu)
    exact htv

end Tree

end TreePath
