import TreePath.Proofs.Json.Number
import TreePath.Proofs.Number.Equality
import TreePath.Proofs.Number.Value
import TreePath.Proofs.Tree.Equality
import TreePath.Proofs.Tree.Route

/-!
Values and the nodes that documents make of them. Equality of nodes is an equivalence as long as no
double is no number, and no node that is made of a value holds such a double. A node has the shape of
its value, and all its numbers but the integers above the signed words, which are rounded: equal values
become equal nodes, and other values do not unless they hold such integers.
-/

namespace TreePath

namespace Json

namespace Number

/-- How a document holds a number: an integer as it is where a signed word does and rounded to the
nearest double where it is above the words, and a double as it is. -/
inductive TakenOver : Number → TreePath.Number → Prop where
  | word {n : Int} {fits : -0x8000000000000000 ≤ n ∧ n < 0x10000000000000000} {i : Int64}
      (value : i.toInt = n) : TakenOver (.integer n fits) (.integer i)
  | rounded {n : Int} {fits : -0x8000000000000000 ≤ n ∧ n < 0x10000000000000000} {x : Binary64}
      (above : Int64.maxValue.toInt < n) (nearest : x.IsNearest n) :
      TakenOver (.integer n fits) (.float x)
  | double (x : Binary64) (finite : x.isFinite = true) : TakenOver (.float x finite) (.float x)

theorem takenOver_toDocument (m : Number) : m.TakenOver m.toDocument := by
  cases m with
  | integer n fits =>
    rcases toDocument_integer_cases fits with ⟨i, hi, h⟩ | ⟨hn, -, h⟩
    · rw [h]
      exact .word (int64?_eq_some_iff.1 hi)
    · have hmax := Int64.toInt_maxValue
      rw [h]
      exact .rounded (by omega) (Binary64.isNearest_ofInt (by omega))
  | float x finite =>
    rw [toDocument_float]
    exact .double x finite

/-- No number of a value is an infinity, or no number at all, in a document. -/
theorem isFinite_of_toDocument {m : Number} {x : Binary64} (h : m.toDocument = .float x) :
    x.isFinite = true := by
  have htaken := m.takenOver_toDocument
  rw [h] at htaken
  cases htaken with
  | rounded above nearest => exact nearest.finite
  | double x finite => exact finite

theorem equal_toDocument_self (m : Number) : m.toDocument.equal m.toDocument = true := by
  rw [TreePath.Number.equal_self_iff]
  intro x hx
  exact (Binary64.ordinary_of_isFinite (isFinite_of_toDocument hx)).1

theorem equal_toDocument {m n : Number} (h : m.equal n = true) :
    m.toDocument.equal n.toDocument = true := by
  cases m with
  | integer i fits =>
    cases n with
    | integer j fits' =>
      obtain rfl : i = j := of_decide_eq_true h
      exact equal_toDocument_self _
    | float y finite => contradiction
  | float x finite =>
    cases n with
    | integer j fits' => contradiction
    | float y finite' =>
      rw [toDocument_float, toDocument_float]
      exact h

/-- Whether the number is no integer above the signed words. -/
def IsKept : Number → Prop
  | .integer n _ => n ≤ Int64.maxValue.toInt
  | .float _ _ => True

/-- Numbers that a document keeps are equal there only if they were equal before. -/
theorem equal_of_toDocument {m n : Number} (hm : m.IsKept) (hn : n.IsKept)
    (h : m.toDocument.equal n.toDocument = true) : m.equal n = true := by
  have htaken := m.takenOver_toDocument
  have htaken' := n.takenOver_toDocument
  generalize m.toDocument = x, n.toDocument = y at *
  cases htaken with
  | word value =>
    cases htaken' with
    | word value' =>
      obtain rfl := of_decide_eq_true h
      exact decide_eq_true (value.symm.trans value')
    | rounded above nearest => exact absurd hn (Int.not_le.2 above)
    | double y finite => contradiction
  | rounded above nearest => exact absurd hm (Int.not_le.2 above)
  | double x finite =>
    cases htaken' with
    | word value => contradiction
    | rounded above nearest => exact absurd hn (Int.not_le.2 above)
    | double y finite' => exact h

/-- Above the signed words an integer may become equal to its neighbour, and to a double. -/
example :
    (toDocument (.integer 0x8000000000000000 (by decide))).equal
        (toDocument (.integer 0x8000000000000001 (by decide))) = true ∧
      (toDocument (.integer 0x8000000000000000 (by decide))).equal
        (toDocument (.float ⟨0x43E0000000000000⟩ (by decide))) = true := by
  decide +kernel

end Number

end Json

namespace Tree

variable {ν μ : Type}

def keys? : Tree ν → Option (List String)
  | .object entries => some (entries.map Prod.fst)
  | _ => none

/-- The nodes are alike but for their children: of one kind, with the same keys in the same order, with
equally many elements, and with the same text or truth value; and their numbers are related. -/
structure AlikeAtTop (r : ν → μ → Prop) (t : Tree ν) (u : Tree μ) : Prop where
  kind : t.kind = u.kind
  keys : t.keys? = u.keys?
  length : t.elements?.map List.length = u.elements?.map List.length
  string : t.string? = u.string?
  boolean : t.boolean? = u.boolean?
  number : Option.Rel r t.number? u.number?

theorem alikeAtTop_map {r : ν → μ → Prop} {f : ν → μ} (hf : ∀ n, r n (f n)) (t : Tree ν) :
    AlikeAtTop r t (t.map f) := by
  cases t with
  | number n => exact ⟨rfl, rfl, rfl, rfl, rfl, .some (hf n)⟩
  | array items => exact ⟨rfl, rfl, by simp [map, elements?], rfl, rfl, .none⟩
  | object entries => exact ⟨rfl, by simp [map, keys?], rfl, rfl, rfl, .none⟩
  | _ => exact ⟨rfl, rfl, rfl, rfl, rfl, .none⟩

section SameData

variable {a b c : Node}

theorem sameData_symm (keys : a.DistinctKeys) (h : a.sameData b = true) : b.sameData a = true :=
  equal_symm (fun _ _ => Number.equal_symm) keys h

theorem sameData_trans (h : a.sameData b = true) (h' : b.sameData c = true) :
    a.sameData c = true :=
  equal_trans (fun _ _ _ => Number.equal_trans) h h'

/-- A node equals its copy exactly where none of its doubles is no number. -/
theorem sameData_self_iff (keys : a.DistinctKeys) :
    a.sameData a = true ↔ ∀ x, a.HasNumber (.float x) → x.isNaN = false := by
  rw [sameData, equal_self_iff keys]
  constructor
  · intro h x hx
    exact Number.equal_self_iff.1 (h _ hx) x rfl
  · intro h n hn
    apply Number.equal_self_iff.2
    rintro x rfl
    exact h x hn

/-- The doubles of a node that is made of a value are finite. -/
theorem isFinite_of_hasNumber_toNode {v : Json.Value} {x : Binary64}
    (h : v.toNode.HasNumber (.float x)) : x.isFinite = true := by
  have hfinite : ∀ n, v.toNode.HasNumber n → ∀ y, n = .float y → y.isFinite = true := by
    refine forall_hasNumber_map_iff.2 ?_
    intro m _ y
    exact Json.Number.isFinite_of_toDocument
  exact hfinite (.float x) h x rfl

end SameData

/-- Equality of nodes is symmetric as long as no object repeats a key, and always transitive; a node
equals its copy exactly where none of its doubles is no number. Nodes that are made of values have
finite doubles only, so that equality is an equivalence on them. -/
theorem sameData_equivalence :
    (∀ a b : Node, a.DistinctKeys → b.DistinctKeys → a.sameData b = b.sameData a) ∧
    (∀ a b c : Node, a.sameData b = true → b.sameData c = true → a.sameData c = true) ∧
    (∀ a : Node, a.DistinctKeys →
      (a.sameData a = true ↔ ∀ x, a.HasNumber (.float x) → x.isNaN = false)) ∧
    (∀ (v : Json.Value) x, v.toNode.HasNumber (.float x) →
      x.isNaN = false ∧ x.isInfinite = false) ∧
    Equivalence fun a b : { node : Node // ∃ v : Json.Value, v.DistinctKeys ∧ v.toNode = node } =>
      a.1.sameData b.1 = true := by
  refine ⟨?_, ?_, ?_, ?_, ?_, ?_, ?_⟩
  · intro a b keys keys'
    rw [Bool.eq_iff_iff]
    exact ⟨sameData_symm keys, sameData_symm keys'⟩
  · intro a b c
    exact sameData_trans
  · intro a keys
    exact sameData_self_iff keys
  · intro v x hx
    exact Binary64.ordinary_of_isFinite (isFinite_of_hasNumber_toNode hx)
  · rintro ⟨_, v, keys, rfl⟩
    apply (sameData_self_iff ((distinctKeys_map_iff _).2 keys)).2
    intro x hx
    exact (Binary64.ordinary_of_isFinite (isFinite_of_hasNumber_toNode hx)).1
  · rintro ⟨_, v, keys, rfl⟩ b h
    exact sameData_symm ((distinctKeys_map_iff _).2 keys) h
  · intro a b c h h'
    exact sameData_trans h h'

/-- Entries in another order make no difference, from either side; a double that is no number makes its
node unequal to itself, however deep it is. -/
theorem sameData_equivalence_nan :
    (Tree.sameData (.object [("x", .number (.integer 1)), ("y", .null)])
        (.object [("y", .null), ("x", .number (.integer 1))]) = true ∧
      Tree.sameData (.object [("y", .null), ("x", .number (.integer 1))])
        (.object [("x", .number (.integer 1)), ("y", .null)]) = true ∧
      Tree.sameData (.object [("x", .number (.integer 1)), ("y", .null)])
        (.object [("x", .number (.integer 1)), ("y", .null)]) = true) ∧
    (Tree.DistinctKeys (.array [.object [("x", .number (.float .nan))]] : Node) ∧
      ¬ ∀ x, Tree.HasNumber (.float x) (.array [.object [("x", .number (.float .nan))]] : Node) →
        x.isNaN = false) ∧
    (Binary64.ofInt 0x8000000000000001).isNaN = false ∧
      (Binary64.ofInt 0x8000000000000001).isInfinite = false := by
  obtain ⟨hsymm, htrans, hself, hfinite, -⟩ := sameData_equivalence
  have hkeys : Tree.DistinctKeys (.object [("x", .number (.integer 1)), ("y", .null)] : Node) := by
    refine .object _ (by simp) ?_
    simp [DistinctKeys.number, DistinctKeys.null]
  have hkeys' : Tree.DistinctKeys (.object [("y", .null), ("x", .number (.integer 1))] : Node) := by
    refine .object _ (by simp) ?_
    simp [DistinctKeys.number, DistinctKeys.null]
  have hkeysNaN : Tree.DistinctKeys (.array [.object [("x", .number (.float .nan))]] : Node) := by
    simp [distinctKeys_array_iff, distinctKeys_object_iff, DistinctKeys.number]
  have hsame : Tree.sameData (.object [("x", .number (.integer 1)), ("y", .null)])
      (.object [("y", .null), ("x", .number (.integer 1))]) = true := by decide
  have hback := (hsymm _ _ hkeys hkeys').symm.trans hsame
  refine ⟨⟨hsame, hback, htrans _ _ _ hsame hback⟩, ⟨hkeysNaN, ?_⟩, ?_⟩
  · rw [← hself _ hkeysNaN]
    decide
  · have hrounded : (Json.Number.integer 0x8000000000000001 (by decide)).toDocument =
        .float (.ofInt 0x8000000000000001) := by decide +kernel
    apply hfinite (.array [.number (.integer 0x8000000000000001 (by decide))])
    rw [← hrounded]
    exact .item List.mem_cons_self .number

end Tree

namespace Json

/-- Equal values become equal nodes, and only equal values do where no integer is above the signed
words. Wherever a route leads, a value and its node are alike but for the numbers, each of which the
document takes over; no number is left to the default of the conversion. -/
theorem toNode_keeps_equality_and_shape :
    (∀ v w : Value, v.equal Number.equal w = true → v.toNode.sameData w.toNode = true) ∧
    (∀ v w : Value, (∀ n, v.HasNumber n → n.IsKept) → (∀ n, w.HasNumber n → n.IsKept) →
      v.toNode.sameData w.toNode = true → v.equal Number.equal w = true) ∧
    (∀ (v : Value) route, Option.Rel (Tree.AlikeAtTop Number.TakenOver)
      (v.follow? route) (v.toNode.follow? route)) ∧
    ∀ default (m : Number), m.convert default = m.toDocument := by
  refine ⟨?_, ?_, ?_, Number.convert_eq_toDocument⟩
  · intro v w h
    rw [Tree.sameData, Value.toNode, Value.toNode, Tree.equal_map]
    apply Tree.equal_mono h
    intro m _ n _
    exact Number.equal_toDocument
  · intro v w hv hw h
    rw [Tree.sameData, Value.toNode, Value.toNode, Tree.equal_map] at h
    apply Tree.equal_mono h
    intro m hm n hn
    exact Number.equal_of_toDocument (hv m hm) (hw n hn)
  · intro v route
    rw [Value.toNode, Tree.follow?_map]
    cases v.follow? route with
    | none => exact .none
    | some t => exact .some (t.alikeAtTop_map Number.takenOver_toDocument)

/-- Values with their keys in another order, and an integer above the signed words that a document
rounds. -/
theorem toNode_keeps_equality_and_shape_rounded :
    (Tree.sameData
        (Value.toNode (.object [("x", .number (.integer 1 (by decide))), ("y", .null)]))
        (Value.toNode (.object [("y", .null), ("x", .number (.integer 1 (by decide)))])) = true ∧
      Tree.equal Number.equal
        (.object [("x", .number (.integer 1 (by decide))), ("y", .null)] : Value)
        (.object [("y", .null), ("x", .number (.integer 1 (by decide)))]) = true) ∧
    Option.Rel (Tree.AlikeAtTop Number.TakenOver)
      (some (.number (.integer 0x8000000000000001 (by decide))))
      (some (.number (.float ⟨0x43E0000000000000⟩))) := by
  obtain ⟨hequal, hconverse, hroute, -⟩ := toNode_keeps_equality_and_shape
  have hnode : Tree.sameData
      (Value.toNode (.object [("x", .number (.integer 1 (by decide))), ("y", .null)]))
      (Value.toNode (.object [("y", .null), ("x", .number (.integer 1 (by decide)))])) = true :=
    hequal _ _ (by decide)
  refine ⟨⟨hnode, hconverse _ _ ?_ ?_ hnode⟩, ?_⟩
  · simp [Tree.forall_hasNumber_object_iff, Tree.forall_hasNumber_number_iff, Number.IsKept,
      Int64.toInt_maxValue]
  · simp [Tree.forall_hasNumber_object_iff, Tree.forall_hasNumber_number_iff, Number.IsKept,
      Int64.toInt_maxValue]
  · have hrounded := hroute (.array [.number (.integer 0x8000000000000001 (by decide))]) [.position 0]
    have hdouble : (Number.integer 0x8000000000000001 (by decide)).toDocument =
        .float ⟨0x43E0000000000000⟩ := by decide +kernel
    rw [← hdouble]
    exact hrounded

end Json

end TreePath
