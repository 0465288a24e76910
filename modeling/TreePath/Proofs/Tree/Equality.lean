import Mathlib.Data.List.Forall2
import TreePath.Proofs.Lists
import TreePath.Proofs.Tree.Walk
import TreePath.Tree.Equality

/-!
Equality of trees as data, for any equality of numbers. It is transitive; where no object repeats a
key it is also symmetric, although the entries of only one of two objects are looked up in the other,
and a tree equals itself exactly where each of its numbers does. Entries in another order make an
equal tree.
-/

namespace TreePath

namespace Tree

variable {ν μ : Type} {same : ν → ν → Bool} {a b c : Tree ν}

theorem equal_null_iff : null.equal same b = true ↔ b = null := by
  cases b <;> simp [equal]

theorem equal_boolean_iff {x : Bool} : (boolean x).equal same b = true ↔ b = boolean x := by
  cases b <;> simp [equal, eq_comm]

theorem equal_number_iff {m : ν} :
    (number m).equal same b = true ↔ ∃ n, b = number n ∧ same m n = true := by
  cases b <;> simp [equal]

theorem equal_string_iff {s : String} : (string s).equal same b = true ↔ b = string s := by
  cases b <;> simp [equal, eq_comm]

theorem equalItems_iff {items others : List (Tree ν)} :
    equalItems same items others = true ↔ List.Forall₂ (equal same · ·) items others := by
  induction items generalizing others with
  | nil => cases others <;> simp [equalItems]
  | cons t rest ih => cases others <;> simp [equalItems, ih]

theorem equal_array_iff {items : List (Tree ν)} :
    (array items).equal same b = true ↔
      ∃ others, b = array others ∧ List.Forall₂ (equal same · ·) items others := by
  cases b <;> simp [equal, equalItems_iff]

theorem allMatched_iff {entries others : Entries ν} : allMatched same entries others = true ↔
    ∀ e ∈ entries, ∃ u, others.lookup e.1 = some u ∧ e.2.equal same u = true := by
  induction entries with
  | nil => simp [allMatched]
  | cons e rest ih =>
    obtain ⟨key, t⟩ := e
    rw [allMatched, Bool.and_eq_true, ih, List.forall_mem_cons]
    cases others.lookup key <;> simp

theorem equal_object_iff {entries : Entries ν} :
    (object entries).equal same b = true ↔
      ∃ others, b = object others ∧ entries.length = others.length ∧
        ∀ e ∈ entries, ∃ u, others.lookup e.1 = some u ∧ e.2.equal same u = true := by
  cases b <;> simp [equal, allMatched_iff]

/-- Equal trees are of one kind. -/
theorem kind_of_equal (h : a.equal same b = true) : a.kind = b.kind := by
  cases a <;> cases b <;> first | rfl | simp [equal] at h

/-- What follows for every pair of items follows for the items. -/
theorem forall₂_of_mem {R S : Tree ν → Tree ν → Prop} {items others : List (Tree ν)}
    (h : List.Forall₂ R items others) (himp : ∀ t ∈ items, ∀ u ∈ others, R t u → S t u) :
    List.Forall₂ S items others := by
  induction h with
  | nil => exact .nil
  | @cons t u rest later head _ ih =>
    refine .cons (himp t List.mem_cons_self u List.mem_cons_self head) (ih ?_)
    intro t' ht' u' hu'
    exact himp t' (List.mem_cons_of_mem t ht') u' (List.mem_cons_of_mem u hu')

theorem forall₂_trans_of_mem {R : Tree ν → Tree ν → Prop} {items others third : List (Tree ν)}
    (h : List.Forall₂ R items others) (h' : List.Forall₂ R others third)
    (trans : ∀ t ∈ items, ∀ u v, R t u → R u v → R t v) : List.Forall₂ R items third := by
  induction h generalizing third with
  | nil =>
    cases h'
    exact .nil
  | cons head _ ih =>
    obtain ⟨hfirst, hrest⟩ := List.forall_mem_cons.1 trans
    cases h' with
    | cons head' tail' => exact .cons (hfirst _ _ head head') (ih tail' hrest)

/-- The keys of equal objects are the same in some order, so that each entry of the second is the
match of an entry of the first. -/
theorem equal_symm (symm : ∀ m n, same m n = true → same n m = true) (keys : a.DistinctKeys)
    (h : a.equal same b = true) : b.equal same a = true := by
  induction a using Tree.induction generalizing b with
  | null =>
    obtain rfl := equal_null_iff.1 h
    exact h
  | boolean x =>
    obtain rfl := equal_boolean_iff.1 h
    exact h
  | number m =>
    obtain ⟨n, rfl, hn⟩ := equal_number_iff.1 h
    exact equal_number_iff.2 ⟨m, rfl, symm m n hn⟩
  | string s =>
    obtain rfl := equal_string_iff.1 h
    exact h
  | array items ih =>
    obtain ⟨others, rfl, hitems⟩ := equal_array_iff.1 h
    have hkeys := distinctKeys_array_iff.1 keys
    refine equal_array_iff.2 ⟨items, rfl, ?_⟩
    apply List.Forall₂.flip
    apply forall₂_of_mem hitems
    intro t ht u _ htu
    exact ih t ht (hkeys t ht) htu
  | object entries ih =>
    obtain ⟨others, rfl, hlength, hmatched⟩ := equal_object_iff.1 h
    obtain ⟨hkeys, hchildren⟩ := distinctKeys_object_iff.1 keys
    have hperm := Keyed.keys_perm hkeys hlength fun e he => (hmatched e he).imp fun _ hu => hu.1
    refine equal_object_iff.2 ⟨entries, rfl, hlength.symm, ?_⟩
    intro f hf
    obtain ⟨e, he, hkey⟩ := List.mem_map.1 (hperm.mem_iff.2 (List.mem_map_of_mem hf))
    obtain ⟨u, hu, hequal⟩ := hmatched e he
    rw [hkey, Keyed.lookup_of_mem (hperm.nodup_iff.1 hkeys) hf] at hu
    obtain rfl := Option.some.inj hu
    refine ⟨e.2, ?_, ih e he (hchildren e he) hequal⟩
    rw [← hkey]
    exact Keyed.lookup_of_mem hkeys he

theorem equal_trans (trans : ∀ l m n, same l m = true → same m n = true → same l n = true)
    (h : a.equal same b = true) (h' : b.equal same c = true) : a.equal same c = true := by
  induction a using Tree.induction generalizing b c with
  | null =>
    obtain rfl := equal_null_iff.1 h
    exact h'
  | boolean x =>
    obtain rfl := equal_boolean_iff.1 h
    exact h'
  | number l =>
    obtain ⟨m, rfl, hm⟩ := equal_number_iff.1 h
    obtain ⟨n, rfl, hn⟩ := equal_number_iff.1 h'
    exact equal_number_iff.2 ⟨n, rfl, trans l m n hm hn⟩
  | string s =>
    obtain rfl := equal_string_iff.1 h
    exact h'
  | array items ih =>
    obtain ⟨others, rfl, hitems⟩ := equal_array_iff.1 h
    obtain ⟨third, rfl, hothers⟩ := equal_array_iff.1 h'
    refine equal_array_iff.2 ⟨third, rfl, forall₂_trans_of_mem hitems hothers ?_⟩
    intro t ht u v htu huv
    exact ih t ht htu huv
  | object entries ih =>
    obtain ⟨others, rfl, hlength, hmatched⟩ := equal_object_iff.1 h
    obtain ⟨third, rfl, hlength', hmatched'⟩ := equal_object_iff.1 h'
    refine equal_object_iff.2 ⟨third, rfl, hlength.trans hlength', ?_⟩
    intro e he
    obtain ⟨u, hu, hequal⟩ := hmatched e he
    obtain ⟨v, hv, hequal'⟩ := hmatched' (e.1, u) (Keyed.mem_of_lookup hu)
    exact ⟨v, hv, ih e he hequal hequal'⟩

/-- The number is at some leaf of the tree. -/
inductive HasNumber (n : ν) : Tree ν → Prop where
  | number : HasNumber n (.number n)
  | item {items : List (Tree ν)} {t : Tree ν} (mem : t ∈ items) (leaf : HasNumber n t) :
      HasNumber n (.array items)
  | entry {entries : Entries ν} {e : String × Tree ν} (mem : e ∈ entries)
      (leaf : HasNumber n e.2) : HasNumber n (.object entries)

@[simp] theorem not_hasNumber_null {n : ν} : ¬ null.HasNumber n := nofun

@[simp] theorem not_hasNumber_boolean {n : ν} {x : Bool} : ¬ (boolean x).HasNumber n := nofun

@[simp] theorem not_hasNumber_string {n : ν} {s : String} : ¬ (string s).HasNumber n := nofun

section Leaves

variable {p : ν → Prop}

theorem forall_hasNumber_number_iff {m : ν} : (∀ n, (number m).HasNumber n → p n) ↔ p m := by
  constructor
  · intro h
    exact h m .number
  · intro h n hn
    cases hn
    exact h

theorem forall_hasNumber_array_iff {items : List (Tree ν)} :
    (∀ n, (array items).HasNumber n → p n) ↔ ∀ t ∈ items, ∀ n, t.HasNumber n → p n := by
  constructor
  · intro h t ht n hn
    exact h n (.item ht hn)
  · intro h n hn
    cases hn with
    | item mem leaf => exact h _ mem n leaf

theorem forall_hasNumber_object_iff {entries : Entries ν} :
    (∀ n, (object entries).HasNumber n → p n) ↔ ∀ e ∈ entries, ∀ n, e.2.HasNumber n → p n := by
  constructor
  · intro h e he n hn
    exact h n (.entry he hn)
  · intro h n hn
    cases hn with
    | entry mem leaf => exact h _ mem n leaf

/-- The numbers of a tree with its numbers replaced are the replacements. -/
theorem forall_hasNumber_map_iff {f : μ → ν} {t : Tree μ} :
    (∀ n, (t.map f).HasNumber n → p n) ↔ ∀ m, t.HasNumber m → p (f m) := by
  induction t using Tree.induction with
  | null => simp [map]
  | boolean x => simp [map]
  | string s => simp [map]
  | number m => rw [map, forall_hasNumber_number_iff, forall_hasNumber_number_iff]
  | array items ih =>
    rw [map, mapItems_eq_map, forall_hasNumber_array_iff, forall_hasNumber_array_iff,
      List.forall_mem_map]
    exact forall₂_congr ih
  | object entries ih =>
    rw [map, mapEntries_eq_map, forall_hasNumber_object_iff, forall_hasNumber_object_iff,
      List.forall_mem_map]
    exact forall₂_congr ih

end Leaves

/-- A tree equals itself exactly where each of its numbers does. -/
theorem equal_self_iff (keys : a.DistinctKeys) :
    a.equal same a = true ↔ ∀ n, a.HasNumber n → same n n = true := by
  induction a using Tree.induction with
  | null => simp [equal]
  | boolean x => simp [equal]
  | string s => simp [equal]
  | number m =>
    rw [forall_hasNumber_number_iff, equal]
  | array items ih =>
    have hkeys := distinctKeys_array_iff.1 keys
    rw [forall_hasNumber_array_iff, equal, equalItems_iff, List.forall₂_same]
    exact forall₂_congr fun t ht => ih t ht (hkeys t ht)
  | object entries ih =>
    obtain ⟨hkeys, hchildren⟩ := distinctKeys_object_iff.1 keys
    rw [forall_hasNumber_object_iff, equal, decide_eq_true rfl, Bool.true_and, allMatched_iff]
    apply forall₂_congr
    intro e he
    rw [← ih e he (hchildren e he), Keyed.lookup_of_mem hkeys he]
    simp

/-- Trees that are equal for one equality are equal for every other that holds of their equal
numbers. -/
theorem equal_mono {same' : ν → ν → Bool} (h : a.equal same b = true)
    (himp : ∀ m, a.HasNumber m → ∀ n, b.HasNumber n → same m n = true → same' m n = true) :
    a.equal same' b = true := by
  induction a using Tree.induction generalizing b with
  | null => exact equal_null_iff.2 (equal_null_iff.1 h)
  | boolean x => exact equal_boolean_iff.2 (equal_boolean_iff.1 h)
  | string s => exact equal_string_iff.2 (equal_string_iff.1 h)
  | number m =>
    obtain ⟨n, rfl, hn⟩ := equal_number_iff.1 h
    exact equal_number_iff.2 ⟨n, rfl, himp m .number n .number hn⟩
  | array items ih =>
    obtain ⟨others, rfl, hitems⟩ := equal_array_iff.1 h
    refine equal_array_iff.2 ⟨others, rfl, forall₂_of_mem hitems ?_⟩
    intro t ht u hu htu
    apply ih t ht htu
    intro m hm n hn
    exact himp m (.item ht hm) n (.item hu hn)
  | object entries ih =>
    obtain ⟨others, rfl, hlength, hmatched⟩ := equal_object_iff.1 h
    refine equal_object_iff.2 ⟨others, rfl, hlength, ?_⟩
    intro e he
    obtain ⟨u, hu, hequal⟩ := hmatched e he
    refine ⟨u, hu, ih e he hequal ?_⟩
    intro m hm n hn
    exact himp m (.entry he hm) n (.entry (Keyed.mem_of_lookup hu) hn)

/-- Trees with their numbers replaced are equal where the trees are equal up to the replacement. -/
theorem equal_map (f : ν → μ) (same : μ → μ → Bool) (a b : Tree ν) :
    (a.map f).equal same (b.map f) = a.equal (fun m n => same (f m) (f n)) b := by
  induction a using Tree.induction generalizing b with
  | null => cases b <;> rfl
  | boolean x => cases b <;> rfl
  | number m => cases b <;> rfl
  | string s => cases b <;> rfl
  | array items ih =>
    cases b with
    | array others =>
      rw [map, map, equal, equal, Bool.eq_iff_iff, equalItems_iff, equalItems_iff, mapItems_eq_map,
        mapItems_eq_map, List.forall₂_map_left_iff, List.forall₂_map_right_iff]
      constructor
      · intro h
        apply forall₂_of_mem h
        intro t ht u _ htu
        rwa [ih t ht] at htu
      · intro h
        apply forall₂_of_mem h
        intro t ht u _ htu
        rwa [ih t ht]
    | _ => rfl
  | object entries ih =>
    cases b with
    | object others =>
      have hlength (es : Entries ν) : (mapEntries f es).length = es.length := by simp
      rw [map, map, equal, equal, hlength, hlength]
      congr 1
      rw [Bool.eq_iff_iff, allMatched_iff, allMatched_iff, mapEntries_eq_map, List.forall_mem_map]
      apply forall₂_congr
      intro e he
      rw [lookup_mapEntries]
      simp [ih e he]
    | _ => rfl

end Tree

end TreePath
