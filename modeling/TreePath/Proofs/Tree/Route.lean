import TreePath.Proofs.Path.Printer
import TreePath.Proofs.Tree.Walk

/-!
Routes: the address of a node in its tree, one child at a time from the root. A path is a route in
which the keys and the positions behind them are grouped, and a walk along the path is the same as
following the route.
-/

namespace TreePath

inductive Hop where
  | key (name : String)
  | position (index : UInt64)
  deriving DecidableEq, Repr

namespace Hop

/-- Whether a path can spell the hop: a key is not empty, and no dot or bracket divides it. -/
def IsPlain : Hop → Prop
  | .key name => name ≠ "" ∧ '.' ∉ name.toList ∧ '[' ∉ name.toList
  | .position _ => True

instance : (hop : Hop) → Decidable hop.IsPlain
  | .key name =>
    inferInstanceAs (Decidable (name ≠ "" ∧ '.' ∉ name.toList ∧ '[' ∉ name.toList))
  | .position _ => inferInstanceAs (Decidable True)

def chars : Hop → List Char
  | .key name => '.' :: name.toList
  | .position index => Segment.indexChars index

end Hop

abbrev Route := List Hop

namespace Route

structure IsPlain (route : Route) : Prop where
  nonempty : route ≠ []
  hops : ∀ hop ∈ route, hop.IsPlain

/-- The keys joined by dots, with every position in brackets. -/
def chars : Route → List Char
  | .key name :: rest => name.toList ++ rest.flatMap Hop.chars
  | route => route.flatMap Hop.chars

def text (route : Route) : String := String.ofList (chars route)

end Route

def Segment.route (s : Segment) : Route := .key s.property :: s.indices.map .position

namespace Path

def route (p : Path) : Route := p.segments.flatMap Segment.route

/-- Every route is some positions, and then segments one after the other. -/
theorem exists_segments_of_route (route : Route) :
    ∃ (indices : List UInt64) (segments : List Segment),
      route = indices.map Hop.position ++ segments.flatMap Segment.route := by
  induction route with
  | nil => exact ⟨[], [], rfl⟩
  | cons hop route ih =>
    obtain ⟨indices, segments, rfl⟩ := ih
    cases hop with
    | key name => exact ⟨[], ⟨name, indices⟩ :: segments, rfl⟩
    | position index => exact ⟨index :: indices, segments, rfl⟩

/-- A route that begins with a key is the route of a path. -/
theorem exists_route_eq (name : String) (rest : Route) :
    ∃ p : Path, p.route = .key name :: rest := by
  obtain ⟨indices, segments, rfl⟩ := exists_segments_of_route rest
  exact ⟨⟨⟨name, indices⟩ :: segments, List.cons_ne_nil _ _⟩, rfl⟩

theorem route_ne_nil (p : Path) : p.route ≠ [] := by
  obtain ⟨s, segments, hs⟩ := List.exists_cons_of_ne_nil p.nonempty
  simp [route, hs, Segment.route]

theorem isPlain_segment_route_iff (s : Segment) :
    (∀ hop ∈ s.route, hop.IsPlain) ↔ s.IsPlain := by
  rw [Segment.route, List.forall_mem_cons]
  refine ⟨fun h => h.1, fun h => ⟨h, ?_⟩⟩
  intro hop hhop
  obtain ⟨index, -, rfl⟩ := List.mem_map.1 hhop
  trivial

/-- A path can be spelled exactly where its route can. -/
theorem isPlain_route_iff (p : Path) : Route.IsPlain p.route ↔ ∀ s ∈ p.segments, s.IsPlain := by
  constructor
  · intro h s hs
    exact (isPlain_segment_route_iff s).1 fun hop hhop =>
      h.hops hop (List.mem_flatMap.2 ⟨s, hs, hhop⟩)
  · intro h
    refine ⟨p.route_ne_nil, ?_⟩
    intro hop hhop
    obtain ⟨s, hs, hhop⟩ := List.mem_flatMap.1 hhop
    exact (isPlain_segment_route_iff s).2 (h s hs) hop hhop

theorem isPlain_route_of_read {text : String} {p : Path} (h : read text = .ok p) :
    Route.IsPlain p.route :=
  p.isPlain_route_iff.2 ((read_eq_ok_iff_denotes text p).1 h).isPlain

theorem chars_segment_route (s : Segment) : s.route.flatMap Hop.chars = '.' :: s.chars := by
  simp [Segment.route, Segment.chars, Hop.chars, List.flatMap_map]

/-- Joining by dots puts a dot in front of every segment but the first. -/
theorem intercalate_chars (s : Segment) (segments : List Segment) :
    ['.'].intercalate ((s :: segments).map Segment.chars) =
      s.chars ++ (segments.flatMap Segment.route).flatMap Hop.chars := by
  induction segments generalizing s with
  | nil => simp
  | cons next segments ih =>
    rw [List.map_cons, List.map_cons, List.intercalate_cons_cons, ← List.map_cons, ih,
      List.flatMap_cons, List.flatMap_append, chars_segment_route]
    simp

/-- A path and its route are written alike. -/
theorem text_route (p : Path) : Route.text p.route = p.text := by
  obtain ⟨s, segments, hs⟩ := List.exists_cons_of_ne_nil p.nonempty
  rw [Route.text, text, chars, route, hs, intercalate_chars]
  simp [Segment.route, Route.chars, Segment.chars, Hop.chars, List.flatMap_map]

end Path

namespace Tree

variable {ν : Type}

def hop? : Hop → Tree ν → Option (Tree ν)
  | .key name, t => t.property? name
  | .position index, t => t.element? index

def follow? : Route → Tree ν → Option (Tree ν)
  | [], t => some t
  | hop :: rest, t => (t.hop? hop).bind (follow? rest)

theorem follow?_append (route later : Route) (t : Tree ν) :
    t.follow? (route ++ later) = (t.follow? route).bind (follow? later) := by
  induction route generalizing t with
  | nil => rfl
  | cons hop route ih =>
    simp only [List.cons_append, follow?, Option.bind_assoc]
    congr 1
    funext child
    exact ih child

theorem follow?_positions (property : String) (indices : List UInt64) (t : Tree ν) :
    t.follow? (indices.map .position) = (walkIndices property indices t).toOption := by
  induction indices generalizing t with
  | nil => rfl
  | cons index indices ih =>
    simp only [List.map_cons, follow?, hop?, walkIndices]
    cases t.element? index with
    | none => rfl
    | some child => exact ih child

theorem follow?_segment (s : Segment) (t : Tree ν) :
    t.follow? s.route = (t.walkSegment s).toOption := by
  simp only [Segment.route, follow?, hop?, walkSegment]
  cases t.property? s.property with
  | none => rfl
  | some child => exact follow?_positions s.property s.indices child

theorem follow?_segments (segments : List Segment) (t : Tree ν) :
    t.follow? (segments.flatMap Segment.route) = (walkSegments segments t).toOption := by
  induction segments generalizing t with
  | nil => rfl
  | cons s segments ih =>
    simp only [List.flatMap_cons, follow?_append, follow?_segment, walkSegments]
    cases t.walkSegment s with
    | error miss => rfl
    | ok child => exact ih child

/-- A path leads where its route leads. -/
theorem at?_eq_follow? (p : Path) (t : Tree ν) : t.at? p = t.follow? p.route := by
  rw [at?_eq_walkSegments, Path.route, follow?_segments]

/-- A route leads to the node with its numbers replaced, or nowhere as before. -/
theorem follow?_map {μ : Type} (f : ν → μ) (route : Route) (t : Tree ν) :
    (t.map f).follow? route = (t.follow? route).map (map f) := by
  induction route generalizing t with
  | nil => rfl
  | cons hop route ih =>
    have hhop : (t.map f).hop? hop = (t.hop? hop).map (map f) := by
      cases hop with
      | key name => exact property?_map f name t
      | position index => exact element?_map f index t
    rw [follow?, follow?, hhop, Option.bind_map, Option.map_bind]
    congr 1
    funext child
    exact ih child

/-- From an object the first hop is by a key. -/
theorem exists_key_of_follow? {entries : Entries ν} {hop : Hop} {rest : Route}
    (h : ((object entries).follow? (hop :: rest)).isSome) : ∃ name, hop = .key name := by
  cases hop with
  | key name => exact ⟨name, rfl⟩
  | position index => simp [follow?, hop?, element?, elements?] at h

end Tree

end TreePath
