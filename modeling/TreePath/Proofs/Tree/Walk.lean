import TreePath.Proofs.Path.Grammar
import TreePath.Tree.Equality

/-!
Walks compose: a walk along a longer path is a walk from where the shorter one arrives. A node that
is no object ends every walk.
-/

namespace TreePath

namespace Tree

variable {ν : Type}

theorem walkIndices_append (property : String) (indices later : List UInt64) (t : Tree ν) :
    walkIndices property (indices ++ later) t =
      (walkIndices property indices t).bind (walkIndices property later) := by
  induction indices generalizing t with
  | nil => rfl
  | cons index indices ih =>
    simp only [List.cons_append, walkIndices]
    cases t.element? index with
    | none => rfl
    | some child => exact ih child

theorem walkSegments_append (segments later : List Segment) (t : Tree ν) :
    walkSegments (segments ++ later) t = (walkSegments segments t).bind (walkSegments later) := by
  induction segments generalizing t with
  | nil => rfl
  | cons s segments ih =>
    simp only [List.cons_append, walkSegments]
    cases t.walkSegment s with
    | error miss => rfl
    | ok child => exact ih child

/-- A segment with more positions goes on below the node that it leads to. -/
theorem walkSegment_extend (s : Segment) (later : List UInt64) (t : Tree ν) :
    t.walkSegment ⟨s.property, s.indices ++ later⟩ =
      (t.walkSegment s).bind (walkIndices s.property later) := by
  unfold walkSegment
  cases t.property? s.property with
  | none => rfl
  | some child => exact walkIndices_append s.property s.indices later child

/-- Properties are found in objects only. -/
theorem property?_of_not_object {t : Tree ν} (h : t.isObject = false) (name : String) :
    t.property? name = none := by
  cases t <;> simp_all [property?, isObject, kind]

theorem walkSegments_of_not_object {t : Tree ν} (h : t.isObject = false) {segments : List Segment}
    (hne : segments ≠ []) : (walkSegments segments t).toOption = none := by
  obtain ⟨s, segments, rfl⟩ := List.exists_cons_of_ne_nil hne
  simp [walkSegments, walkSegment, property?_of_not_object h, Except.toOption]

/-- The node at a path, without the reason where there is none. -/
def at? (path : Path) (t : Tree ν) : Option (Tree ν) := (t.walk path).toOption

/-- A null root needs no case of its own: it is no object. -/
theorem at?_eq_walkSegments (path : Path) (t : Tree ν) :
    t.at? path = (walkSegments path.segments t).toOption := by
  unfold at? walk
  split
  · next h =>
    have hobject : t.isObject = false := by
      cases t <;> simp_all [isObject, isNull, kind]
    exact (walkSegments_of_not_object hobject path.nonempty).symm
  · rfl

theorem at?_of_not_object {t : Tree ν} (h : t.isObject = false) (path : Path) :
    t.at? path = none := by
  rw [at?_eq_walkSegments]
  exact walkSegments_of_not_object h path.nonempty

theorem toOption_bind {ε α β : Type} (x : Except ε α) (f : α → Except ε β) :
    (x.bind f).toOption = x.toOption.bind fun a => (f a).toOption := by
  cases x <;> rfl

/-- A path that goes on leads to what the rest leads to from the node in between. -/
theorem at?_append (p q : Path) (t : Tree ν) : t.at? (p ++ q) = (t.at? p).bind (at? q) := by
  have hrest : (at? q : Tree ν → _) = fun child => (walkSegments q.segments child).toOption := by
    funext child
    exact at?_eq_walkSegments q child
  rw [at?_eq_walkSegments, Path.segments_append, walkSegments_append, toOption_bind, hrest,
    at?_eq_walkSegments]

/-- A position behind a path leads to that child of the array in between. -/
theorem at?_extend (p : Path) (index : UInt64) (t : Tree ν) :
    t.at? (p.extend [index]) = (t.at? p).bind (element? index) := by
  obtain ⟨earlier, s, hs⟩ := (List.eq_nil_or_concat p.segments).resolve_left p.nonempty
  rw [List.concat_eq_append] at hs
  simp only [at?_eq_walkSegments, Path.segments_extend hs, hs, walkSegments_append, toOption_bind,
    Option.bind_assoc]
  congr 1
  funext child
  simp only [walkSegments, walkSegment_extend]
  cases child.walkSegment s with
  | error miss => rfl
  | ok node =>
    simp only [Except.bind, walkIndices, Except.toOption, Option.bind_some]
    cases node.element? index <;> rfl

end Tree

/-!
Replacing the numbers of a tree changes no key and no walk: the same paths arrive, and the others miss
the same step for the same reason.
-/

namespace Tree

variable {ν μ : Type} (f : ν → μ)

theorem distinctKeys_map_iff {t : Tree ν} : (t.map f).DistinctKeys ↔ t.DistinctKeys := by
  induction t using Tree.induction with
  | null => exact iff_of_true .null .null
  | boolean b => exact iff_of_true (.boolean b) (.boolean b)
  | number n => exact iff_of_true (.number (f n)) (.number n)
  | string s => exact iff_of_true (.string s) (.string s)
  | array items ih =>
    rw [map, mapItems_eq_map, distinctKeys_array_iff, distinctKeys_array_iff, List.forall_mem_map]
    exact forall₂_congr ih
  | object entries ih =>
    rw [map, mapEntries_eq_map, distinctKeys_object_iff, distinctKeys_object_iff, List.map_map,
      List.forall_mem_map]
    exact and_congr_right' (forall₂_congr ih)

/-- A property is looked up by its key alone. -/
theorem lookup_mapEntries (name : String) (entries : Entries ν) :
    (mapEntries f entries).lookup name = (entries.lookup name).map (map f) := by
  induction entries with
  | nil => rfl
  | cons e rest ih =>
    obtain ⟨key, t⟩ := e
    simp only [mapEntries, List.lookup_cons, ih]
    cases name == key <;> rfl

theorem property?_map (name : String) (t : Tree ν) :
    (t.map f).property? name = (t.property? name).map (map f) := by
  cases t with
  | object entries => exact lookup_mapEntries f name entries
  | _ => rfl

theorem element?_map (index : UInt64) (t : Tree ν) :
    (t.map f).element? index = (t.element? index).map (map f) := by
  cases t with
  | array items => simp [map, element?, elements?]
  | _ => rfl

theorem walkIndices_map (property : String) (indices : List UInt64) (t : Tree ν) :
    walkIndices property indices (t.map f) = (walkIndices property indices t).map (map f) := by
  induction indices generalizing t with
  | nil => rfl
  | cons index indices ih =>
    simp only [walkIndices, element?_map, kind_map]
    cases t.element? index with
    | none => rfl
    | some child => exact ih child

theorem walkSegment_map (s : Segment) (t : Tree ν) :
    (t.map f).walkSegment s = (t.walkSegment s).map (map f) := by
  simp only [walkSegment, property?_map, kind_map]
  cases t.property? s.property with
  | none => rfl
  | some child => exact walkIndices_map f s.property s.indices child

theorem walkSegments_map (segments : List Segment) (t : Tree ν) :
    walkSegments segments (t.map f) = (walkSegments segments t).map (map f) := by
  induction segments generalizing t with
  | nil => rfl
  | cons s segments ih =>
    simp only [walkSegments, walkSegment_map]
    cases t.walkSegment s with
    | error miss => rfl
    | ok child => exact ih child

/-- A walk arrives at the node with its numbers replaced, or misses what it missed before. -/
theorem walk_map (path : Path) (t : Tree ν) : (t.map f).walk path = (t.walk path).map (map f) := by
  have hnull : (t.map f).isNull = t.isNull := by simp [isNull]
  unfold walk
  rw [hnull, walkSegments_map]
  cases t.isNull <;> rfl

theorem at?_map (path : Path) (t : Tree ν) : (t.map f).at? path = (t.at? path).map (map f) := by
  unfold at?
  rw [walk_map]
  cases t.walk path <;> rfl

end Tree

end TreePath
