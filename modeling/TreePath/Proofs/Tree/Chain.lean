import TreePath.Proofs.Tree.Route

/-!
Chains of nodes. A walk arrives exactly where a chain leads, each node of it an entry or an element of
the one before; where it does not arrive, a chain leads to the node that has no such child, and the
walk tells of that node.
-/

namespace TreePath

namespace Tree

variable {ν : Type}

/-- A hop to a child: an object has the first of its entries under a key, and an array the elements at
the positions below its length. -/
inductive Child : Tree ν → Hop → Tree ν → Prop where
  | entry (before after : Entries ν) (key : String) (child : Tree ν)
      (first : ∀ e ∈ before, e.1 ≠ key) :
      Child (.object (before ++ (key, child) :: after)) (.key key) child
  | element (items : List (Tree ν)) (index : UInt64) (below : index.toNat < items.length) :
      Child (.array items) (.position index) items[index.toNat]

/-- A chain of nodes along a route. -/
inductive Chain : Tree ν → Route → Tree ν → Prop where
  | arrived (t : Tree ν) : Chain t [] t
  | hop {t child node : Tree ν} {hop : Hop} {rest : Route} (head : Child t hop child)
      (tail : Chain child rest node) : Chain t (hop :: rest) node

theorem hop?_eq_some_iff {t child : Tree ν} {hop : Hop} :
    t.hop? hop = some child ↔ Child t hop child := by
  constructor
  · intro h
    cases hop with
    | key name =>
      cases t with
      | object entries =>
        obtain ⟨before, after, rfl, hfirst⟩ := List.lookup_eq_some_iff.1 h
        refine .entry before after name child ?_
        intro e he
        exact (bne_iff_ne.1 (hfirst e he)).symm
      | _ => contradiction
    | position index =>
      cases t with
      | array items =>
        obtain ⟨hlt, rfl⟩ := List.getElem?_eq_some_iff.1 h
        exact .element items index hlt
      | _ => contradiction
  · intro h
    cases h with
    | entry before after name child first =>
      refine List.lookup_eq_some_iff.2 ⟨before, after, rfl, ?_⟩
      intro e he
      exact bne_iff_ne.2 (first e he).symm
    | element items index below => exact List.getElem?_eq_getElem below

theorem hop?_eq_none_iff {t : Tree ν} {hop : Hop} :
    t.hop? hop = none ↔ ∀ child, ¬ Child t hop child := by
  simp [Option.eq_none_iff_forall_ne_some, hop?_eq_some_iff]

/-- A route leads to a node where a chain does. -/
theorem follow?_eq_some_iff {t node : Tree ν} {route : Route} :
    t.follow? route = some node ↔ Chain t route node := by
  constructor
  · intro h
    induction route generalizing t with
    | nil =>
      obtain rfl := Option.some.inj h
      exact .arrived t
    | cons hop route ih =>
      obtain ⟨child, hchild, hrest⟩ := Option.bind_eq_some_iff.1 h
      exact .hop (hop?_eq_some_iff.1 hchild) (ih hrest)
  · intro h
    induction h with
    | arrived t => rfl
    | hop head tail ih => exact Option.bind_eq_some_iff.2 ⟨_, hop?_eq_some_iff.2 head, ih⟩

theorem chain_cons_iff {t node : Tree ν} {hop : Hop} {rest : Route} :
    Chain t (hop :: rest) node ↔ ∃ child, Child t hop child ∧ Chain child rest node := by
  simp only [← follow?_eq_some_iff, ← hop?_eq_some_iff, follow?, Option.bind_eq_some_iff]

theorem chain_append_iff {t node : Tree ν} {route later : Route} :
    Chain t (route ++ later) node ↔ ∃ between, Chain t route between ∧ Chain between later node := by
  simp only [← follow?_eq_some_iff, follow?_append, Option.bind_eq_some_iff]

theorem toOption_eq_some_iff {ε α : Type} {x : Except ε α} {a : α} :
    x.toOption = some a ↔ x = .ok a := by
  cases x <;> simp [Except.toOption]

theorem walkIndices_eq_ok_iff {property : String} {indices : List UInt64} {t node : Tree ν} :
    walkIndices property indices t = .ok node ↔ Chain t (indices.map .position) node := by
  rw [← toOption_eq_some_iff, ← follow?_positions, follow?_eq_some_iff]

theorem walkSegments_eq_ok_iff {segments : List Segment} {t node : Tree ν} :
    walkSegments segments t = .ok node ↔ Chain t (segments.flatMap Segment.route) node := by
  rw [← toOption_eq_some_iff, ← follow?_segments, follow?_eq_some_iff]

/-- Steps that may fail come to a failure at the first of them that does. -/
theorem foldlM_eq_error_iff {α β ε : Type} {f : β → α → Except ε β} {xs : List α} {b : β} {e : ε} :
    xs.foldlM f b = .error e ↔ ∃ done x later between, xs = done ++ x :: later ∧
      done.foldlM f b = .ok between ∧ f between x = .error e := by
  constructor
  · intro h
    induction xs generalizing b with
    | nil => contradiction
    | cons x xs ih =>
      rw [List.foldlM_cons] at h
      cases hx : f b x with
      | error e' =>
        rw [hx] at h
        exact ⟨[], x, xs, b, rfl, rfl, hx.trans h⟩
      | ok next =>
        rw [hx] at h
        obtain ⟨done, y, later, between, rfl, hdone, hy⟩ := ih h
        refine ⟨x :: done, y, later, between, rfl, ?_, hy⟩
        rw [List.foldlM_cons, hx]
        exact hdone
  · rintro ⟨done, x, later, between, rfl, hdone, hx⟩
    rw [List.foldlM_append, hdone]
    simp [bind, Except.bind, hx]

/-- The element at a position behind a property, or why there is none. -/
def elementBehind (property : String) (t : Tree ν) (index : UInt64) : Except Miss (Tree ν) :=
  match t.element? index with
  | some child => .ok child
  | none => .error (.index property index t.kind)

theorem walkIndices_eq_foldlM (property : String) (indices : List UInt64) (t : Tree ν) :
    walkIndices property indices t = indices.foldlM (elementBehind property) t := by
  induction indices generalizing t with
  | nil => rfl
  | cons index indices ih =>
    rw [walkIndices, List.foldlM_cons, elementBehind]
    cases t.element? index with
    | none => rfl
    | some child => exact ih child

theorem walkSegments_eq_foldlM (segments : List Segment) (t : Tree ν) :
    walkSegments segments t = segments.foldlM (fun node s => node.walkSegment s) t := by
  induction segments generalizing t with
  | nil => rfl
  | cons s segments ih =>
    rw [walkSegments, List.foldlM_cons]
    cases t.walkSegment s with
    | error miss => rfl
    | ok child => exact ih child

/-- A walk along positions ends at the first position at which a node has no element. -/
theorem walkIndices_eq_error_iff {property : String} {indices : List UInt64} {t : Tree ν}
    {miss : Miss} : walkIndices property indices t = .error miss ↔
      ∃ earlier index rest node, indices = earlier ++ index :: rest ∧
        Chain t (earlier.map .position) node ∧ (∀ child, ¬ Child node (.position index) child) ∧
        miss = .index property index node.kind := by
  have helement (node : Tree ν) (index : UInt64) : elementBehind property node index = .error miss ↔
      (∀ child, ¬ Child node (.position index) child) ∧
        miss = .index property index node.kind := by
    rw [← hop?_eq_none_iff, hop?, elementBehind]
    cases node.element? index <;> simp [eq_comm]
  rw [walkIndices_eq_foldlM, foldlM_eq_error_iff]
  simp only [helement, ← walkIndices_eq_foldlM, walkIndices_eq_ok_iff]

/-- A walk along a segment ends at an absent property, or at a position behind one that is there. -/
theorem walkSegment_eq_error_iff {s : Segment} {t : Tree ν} {miss : Miss} :
    t.walkSegment s = .error miss ↔
      ((∀ child, ¬ Child t (.key s.property) child) ∧ miss = .property s.property t.kind) ∨
      ∃ earlier index rest node, s.indices = earlier ++ index :: rest ∧
        Chain t (.key s.property :: earlier.map .position) node ∧
        (∀ child, ¬ Child node (.position index) child) ∧
        miss = .index s.property index node.kind := by
  unfold walkSegment
  cases h : t.property? s.property with
  | none =>
    have hnone : t.hop? (.key s.property) = none := h
    rw [hop?_eq_none_iff] at hnone
    simp [hnone, chain_cons_iff, eq_comm]
  | some child =>
    have hkey (other : Tree ν) : Child t (.key s.property) other ↔ child = other := by
      rw [← hop?_eq_some_iff, hop?, h, Option.some.injEq]
    simp [hkey, chain_cons_iff, walkIndices_eq_error_iff]

/-- A walk along segments ends in the first segment that leads nowhere. -/
theorem walkSegments_eq_error_iff {segments : List Segment} {t : Tree ν} {miss : Miss} :
    walkSegments segments t = .error miss ↔ ∃ done s later between, segments = done ++ s :: later ∧
      Chain t (done.flatMap Segment.route) between ∧ between.walkSegment s = .error miss := by
  rw [walkSegments_eq_foldlM, foldlM_eq_error_iff]
  simp only [← walkSegments_eq_foldlM, walkSegments_eq_ok_iff]

theorem walk_of_null {t : Tree ν} (h : t.kind = .null) (p : Path) :
    t.walk p = .error (.nullRoot p) := by
  rw [walk, isNull, h]
  rfl

theorem walk_of_ne_null {t : Tree ν} (h : t.kind ≠ .null) (p : Path) :
    t.walk p = walkSegments p.segments t := by
  rw [walk, isNull, if_neg (by simpa using h)]

/-- Only where the root is null does a walk say so. -/
theorem walk_eq_nullRoot_iff {t : Tree ν} {p asked : Path} :
    t.walk p = .error (.nullRoot asked) ↔ t.kind = .null ∧ asked = p := by
  by_cases root : t.kind = .null
  · simp [walk_of_null root, root, eq_comm]
  · rw [walk_of_ne_null root, walkSegments_eq_error_iff]
    constructor
    · rintro ⟨done, s, later, between, -, -, hmiss⟩
      rcases walkSegment_eq_error_iff.1 hmiss with ⟨-, h⟩ | ⟨_, _, _, _, -, -, -, h⟩
      · contradiction
      · contradiction
    · intro h
      exact absurd h.1 root

/-- A walk arrives where a chain leads from a root that is not null. -/
theorem walk_eq_ok_iff {t node : Tree ν} {p : Path} :
    t.walk p = .ok node ↔ t.kind ≠ .null ∧ Chain t p.route node := by
  by_cases h : t.kind = .null
  · simp [walk_of_null h, h]
  · rw [walk_of_ne_null h, walkSegments_eq_ok_iff]
    exact (and_iff_right h).symm

end Tree

end TreePath
