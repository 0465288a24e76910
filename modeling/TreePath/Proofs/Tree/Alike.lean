import TreePath.Proofs.Tree.Equality

/-!
Trees that are equal as data: entries in another order, and walks through both.
-/

namespace TreePath

/-!
Trees that differ only in the order in which their objects list the entries. However many objects are
reordered, at whatever depth, the tree stays equal as data, with every number the same.
-/

namespace Tree

variable {ν : Type}

/-- The entries of objects anywhere in the tree are put into other orders, one object after the
other. -/
inductive Reordered : Tree ν → Tree ν → Prop where
  | refl (t : Tree ν) : Reordered t t
  | entries {entries others : Entries ν} (order : entries.Perm others) :
      Reordered (.object entries) (.object others)
  | item (before after : List (Tree ν)) {t u : Tree ν} (child : Reordered t u) :
      Reordered (.array (before ++ t :: after)) (.array (before ++ u :: after))
  | entry (before after : Entries ν) (key : String) {t u : Tree ν} (child : Reordered t u) :
      Reordered (.object (before ++ (key, t) :: after)) (.object (before ++ (key, u) :: after))
  | trans {a b c : Tree ν} (first : Reordered a b) (second : Reordered b c) : Reordered a c

variable {same : ν → ν → Bool} {t u : Tree ν}

theorem equal_refl (refl : ∀ n, same n n = true) (keys : t.DistinctKeys) : t.equal same t = true :=
  (equal_self_iff keys).2 fun n _ => refl n

/-- Entries in another order are found under the same keys. -/
theorem equal_of_perm (refl : ∀ n, same n n = true) {entries others : Entries ν}
    (order : entries.Perm others) (keys : (object entries).DistinctKeys) :
    (object entries).equal same (object others) = true := by
  obtain ⟨hkeys, hchildren⟩ := distinctKeys_object_iff.1 keys
  refine equal_object_iff.2 ⟨others, rfl, order.length_eq, ?_⟩
  intro e he
  have hothers := (order.map Prod.fst).nodup_iff.1 hkeys
  exact ⟨e.2, Keyed.lookup_of_mem hothers (order.mem_iff.1 he), equal_refl refl (hchildren e he)⟩

/-- Replacing one item by an equal one makes an equal array. -/
theorem equal_item (refl : ∀ n, same n n = true) {before after : List (Tree ν)}
    (keys : (array (before ++ t :: after)).DistinctKeys) (h : t.equal same u = true) :
    (array (before ++ t :: after)).equal same (array (before ++ u :: after)) = true := by
  have hself : ∀ v ∈ before ++ t :: after, v.equal same v = true :=
    fun v hv => equal_refl refl (distinctKeys_array_iff.1 keys v hv)
  rw [List.forall_mem_append, List.forall_mem_cons] at hself
  obtain ⟨hbefore, -, hafter⟩ := hself
  refine equal_array_iff.2 ⟨_, rfl, ?_⟩
  apply List.rel_append
  · exact List.forall₂_same.2 hbefore
  · exact .cons h (List.forall₂_same.2 hafter)

/-- Replacing the value of one key by an equal one makes an equal object. -/
theorem equal_entry (refl : ∀ n, same n n = true) {before after : Entries ν} {key : String}
    (keys : (object (before ++ (key, t) :: after)).DistinctKeys) (h : t.equal same u = true) :
    (object (before ++ (key, t) :: after)).equal same (object (before ++ (key, u) :: after)) =
      true := by
  obtain ⟨hkeys, hchildren⟩ := distinctKeys_object_iff.1 keys
  have hothers : ((before ++ (key, u) :: after).map Prod.fst).Nodup := by simpa using hkeys
  have hlookup : ∀ e ∈ before ++ (key, u) :: after,
      (before ++ (key, u) :: after).lookup e.1 = some e.2 :=
    fun e he => Keyed.lookup_of_mem hothers he
  have hself : ∀ e ∈ before ++ (key, t) :: after, e.2.equal same e.2 = true :=
    fun e he => equal_refl refl (hchildren e he)
  rw [List.forall_mem_append, List.forall_mem_cons] at hlookup hself
  refine equal_object_iff.2 ⟨_, rfl, by simp, ?_⟩
  rw [List.forall_mem_append, List.forall_mem_cons]
  refine ⟨?_, ⟨u, hlookup.2.1, h⟩, ?_⟩
  · intro e he
    exact ⟨e.2, hlookup.1 e he, hself.1 e he⟩
  · intro e he
    exact ⟨e.2, hlookup.2.2 e he, hself.2.2 e he⟩

/-- A reordered tree repeats no key where the tree repeats none, and it is equal to the tree for every
equality in which numbers equal themselves and equals of equals are equal. -/
theorem Reordered.equal (h : Reordered t u) (refl : ∀ n, same n n = true)
    (trans : ∀ l m n, same l m = true → same m n = true → same l n = true)
    (keys : t.DistinctKeys) : u.DistinctKeys ∧ t.equal same u = true := by
  induction h with
  | refl t => exact ⟨keys, equal_refl refl keys⟩
  | entries order =>
    obtain ⟨hkeys, hchildren⟩ := distinctKeys_object_iff.1 keys
    refine ⟨distinctKeys_object_iff.2 ⟨(order.map Prod.fst).nodup_iff.1 hkeys, ?_⟩,
      equal_of_perm refl order keys⟩
    intro e he
    exact hchildren e (order.mem_iff.2 he)
  | item before after child ih =>
    have hkeys := distinctKeys_array_iff.1 keys
    rw [List.forall_mem_append, List.forall_mem_cons] at hkeys
    obtain ⟨hbefore, ht, hafter⟩ := hkeys
    obtain ⟨hu, hequal⟩ := ih ht
    refine ⟨distinctKeys_array_iff.2 ?_, equal_item refl keys hequal⟩
    rw [List.forall_mem_append, List.forall_mem_cons]
    exact ⟨hbefore, hu, hafter⟩
  | entry before after key child ih =>
    obtain ⟨hkeys, hchildren⟩ := distinctKeys_object_iff.1 keys
    rw [List.forall_mem_append, List.forall_mem_cons] at hchildren
    obtain ⟨hbefore, ht, hafter⟩ := hchildren
    obtain ⟨hu, hequal⟩ := ih ht
    refine ⟨distinctKeys_object_iff.2 ⟨by simpa using hkeys, ?_⟩, equal_entry refl keys hequal⟩
    rw [List.forall_mem_append, List.forall_mem_cons]
    exact ⟨hbefore, hu, hafter⟩
  | trans first second ih ih' =>
    obtain ⟨hmiddle, hfirst⟩ := ih keys
    obtain ⟨hlast, hsecond⟩ := ih' hmiddle
    exact ⟨hlast, equal_trans trans hfirst hsecond⟩

end Tree

/-!
Walks through equal trees. They take the same steps and miss the same step for the same reason, and
where they arrive, they arrive at equal nodes.
-/

/-- Both fail alike, or both succeed with related values. -/
inductive Agree {ε α β : Type} (r : α → β → Prop) : Except ε α → Except ε β → Prop where
  | error (e : ε) : Agree r (.error e) (.error e)
  | ok {x : α} {y : β} (related : r x y) : Agree r (.ok x) (.ok y)

namespace Tree

variable {ν : Type} {same : ν → ν → Bool} {a b : Tree ν}

/-- The trees hold equal data, and the first repeats no key. -/
structure Alike (same : ν → ν → Bool) (a b : Tree ν) : Prop where
  keys : a.DistinctKeys
  equal : a.equal same b = true

namespace Alike

variable (h : Alike same a b)

include h

theorem kind : a.kind = b.kind := kind_of_equal h.equal

/-- An entry has its match under the same key, and there is no other entry to match. -/
theorem property? (name : String) :
    Option.Rel (Alike same) (a.property? name) (b.property? name) := by
  cases a with
  | object entries =>
    obtain ⟨others, rfl, hlength, hmatched⟩ := equal_object_iff.1 h.equal
    obtain ⟨hkeys, hchildren⟩ := distinctKeys_object_iff.1 h.keys
    simp only [Tree.property?]
    cases hlookup : entries.lookup name with
    | some t =>
      have hmem := Keyed.mem_of_lookup hlookup
      obtain ⟨u, hu, hequal⟩ := hmatched (name, t) hmem
      rw [hu]
      exact .some ⟨hchildren (name, t) hmem, hequal⟩
    | none =>
      have hperm := Keyed.keys_perm hkeys hlength fun e he => (hmatched e he).imp fun _ hu => hu.1
      rw [Keyed.lookup_eq_none_iff, hperm.mem_iff, ← Keyed.lookup_eq_none_iff] at hlookup
      rw [hlookup]
      exact .none
  | _ =>
    have hkind := h.kind
    cases b <;> first | exact .none | contradiction

theorem elements? : Option.Rel (List.Forall₂ (Alike same)) a.elements? b.elements? := by
  cases a with
  | array items =>
    obtain ⟨others, rfl, hitems⟩ := equal_array_iff.1 h.equal
    have hkeys := distinctKeys_array_iff.1 h.keys
    refine .some (forall₂_of_mem hitems ?_)
    intro t ht u _ htu
    exact ⟨hkeys t ht, htu⟩
  | _ =>
    have hkind := h.kind
    cases b <;> first | exact .none | contradiction

omit h in
theorem getElem? {items others : List (Tree ν)} (h : List.Forall₂ (Alike same) items others)
    (i : Nat) : Option.Rel (Alike same) items[i]? others[i]? := by
  induction h generalizing i with
  | nil => exact .none
  | cons head _ ih =>
    cases i with
    | zero => exact .some head
    | succ i => exact ih i

theorem element? (index : UInt64) :
    Option.Rel (Alike same) (a.element? index) (b.element? index) := by
  have helements := h.elements?
  unfold Tree.element?
  generalize a.elements? = items, b.elements? = others at helements ⊢
  cases helements with
  | none => exact .none
  | some hitems => exact getElem? hitems index.toNat

theorem walkIndices (property : String) (indices : List UInt64) :
    Agree (Alike same) (a.walkIndices property indices) (b.walkIndices property indices) := by
  induction indices generalizing a b with
  | nil => exact .ok h
  | cons index rest ih =>
    have hchild := h.element? index
    simp only [Tree.walkIndices, h.kind]
    generalize a.element? index = found, b.element? index = other at hchild ⊢
    cases hchild with
    | none => exact .error _
    | some related => exact ih related

theorem walkSegment (s : Segment) :
    Agree (Alike same) (a.walkSegment s) (b.walkSegment s) := by
  have hchild := h.property? s.property
  simp only [Tree.walkSegment, h.kind]
  generalize a.property? s.property = found, b.property? s.property = other at hchild ⊢
  cases hchild with
  | none => exact .error _
  | some related => exact related.walkIndices s.property s.indices

theorem walkSegments (segments : List Segment) :
    Agree (Alike same) (a.walkSegments segments) (b.walkSegments segments) := by
  induction segments generalizing a b with
  | nil => exact .ok h
  | cons s rest ih =>
    have hchild := h.walkSegment s
    simp only [Tree.walkSegments]
    generalize a.walkSegment s = found, b.walkSegment s = other at hchild ⊢
    cases hchild with
    | error miss => exact .error miss
    | ok related => exact ih related

/-- A walk through equal trees arrives at equal nodes, or misses one and the same step. -/
theorem walk (p : Path) : Agree (Alike same) (a.walk p) (b.walk p) := by
  unfold Tree.walk isNull
  rw [h.kind]
  split
  · exact .error _
  · exact h.walkSegments p.segments

end Alike

end Tree

end TreePath
