import TreePath.Proofs.Number.Equality
import TreePath.Proofs.Query.Answer
import TreePath.Proofs.Tree.Alike
import TreePath.Query.Basic

/-!
Answers of equal trees. Documents of equal nodes cannot be told apart by any question: they fail alike,
log the same events and say the same, but for the sign of a zero and for the order of the entries in
the nodes that they give. The order of entries in the nodes that are asked never matters.
-/

namespace TreePath

variable {ν : Type} {same : ν → ν → Bool} {near : Binary64 → Binary64 → Prop}

/-- Numbers that are the same are the same word, and have doubles that are near. -/
structure Numeric.Respects [Numeric ν] (same : ν → ν → Bool)
    (near : Binary64 → Binary64 → Prop) : Prop where
  word : ∀ m n, same m n = true → toInt64? m = toInt64? n
  double : ∀ m n, same m n = true → near (toBinary64 m) (toBinary64 n)
  refl : ∀ x, near x x

theorem Number.respects_equal : Numeric.Respects Number.equal Binary64.SameNumber where
  word _ _ := Number.toInt64?_of_equal
  double _ _ := Number.sameNumber_of_equal
  refl := .refl

theorem Number.respects_eq : Numeric.Respects (fun m n : Number => m = n) Eq where
  word _ _ h := congrArg _ (of_decide_eq_true h)
  double _ _ h := congrArg _ (of_decide_eq_true h)
  refl _ := rfl

/-- Answers that say the same: equal nodes, near doubles, and in all else no difference. -/
inductive Answer.Alike (same : ν → ν → Bool) (near : Binary64 → Binary64 → Prop) :
    Answer ν → Answer ν → Prop where
  | node {found other : Option (Tree ν)} (related : Option.Rel (Tree.equal same · ·) found other) :
      Alike same near (.node found) (.node other)
  | string (s : String) : Alike same near (.string s) (.string s)
  | boolean (b : Bool) : Alike same near (.boolean b) (.boolean b)
  | int32 (n : Int32) : Alike same near (.int32 n) (.int32 n)
  | int64 (n : Int64) : Alike same near (.int64 n) (.int64 n)
  | binary64 {x y : Binary64} (related : near x y) :
      Alike same near (.binary64 x) (.binary64 y)
  | array {found other : Option (List (Tree ν))}
      (related : Option.Rel (List.Forall₂ (Tree.equal same · ·)) found other) :
      Alike same near (.array found) (.array other)

namespace Tree.Alike

variable {a b : Tree ν} (h : Alike same a b)

include h

theorem string? : a.string? = b.string? := by
  cases a with
  | string s =>
    obtain rfl := equal_string_iff.1 h.equal
    rfl
  | _ =>
    have hkind := h.kind
    cases b <;> first | rfl | contradiction

theorem boolean? : a.boolean? = b.boolean? := by
  cases a with
  | boolean x =>
    obtain rfl := equal_boolean_iff.1 h.equal
    rfl
  | _ =>
    have hkind := h.kind
    cases b <;> first | rfl | contradiction

theorem number? : Option.Rel (same · ·) a.number? b.number? := by
  cases a with
  | number m =>
    obtain ⟨n, rfl, hn⟩ := equal_number_iff.1 h.equal
    exact .some hn
  | _ =>
    have hkind := h.kind
    cases b <;> first | exact .none | contradiction

theorem children : Option.Rel (List.Forall₂ (Tree.equal same · ·)) a.elements? b.elements? := by
  have helements := h.elements?
  generalize a.elements? = items, b.elements? = others at helements ⊢
  cases helements with
  | none => exact .none
  | some hitems => exact .some (hitems.imp fun _ _ hchild => hchild.equal)

variable [Numeric ν] (hnumbers : Numeric.Respects same near)

include hnumbers

theorem int64? : a.int64? = b.int64? := by
  have hnumber := h.number?
  unfold Tree.int64?
  generalize a.number? = m, b.number? = n at hnumber ⊢
  cases hnumber with
  | none => rfl
  | some hsame => exact hnumbers.word _ _ hsame

theorem binary64? : Option.Rel near a.binary64? b.binary64? := by
  have hnumber := h.number?
  unfold Tree.binary64?
  generalize a.number? = m, b.number? = n at hnumber ⊢
  cases hnumber with
  | none => exact .none
  | some hsame => exact .some (hnumbers.double _ _ hsame)

end Tree.Alike

/-- What is said of equal nodes is the same. -/
theorem Question.of_alike [Numeric ν] (hnumbers : Numeric.Respects same near) (question : Question)
    {found other : Option (Tree ν)} (h : Option.Rel (Tree.Alike same) found other) :
    Answer.Alike same near (question.of found) (question.of other) := by
  cases h with
  | none =>
    cases question with
    | binary64 fallback => exact .binary64 (hnumbers.refl fallback)
    | _ => constructor <;> exact .none
  | @some a b h =>
    cases question with
    | node => exact .node (.some h.equal)
    | contains => exact .boolean true
    | string fallback =>
      simp only [of, Option.bind_some, h.string?]
      exact .string _
    | boolean fallback =>
      simp only [of, Option.bind_some, h.boolean?]
      exact .boolean _
    | int32 fallback =>
      simp only [of, Option.bind_some, h.int64? hnumbers]
      exact .int32 _
    | int64 fallback =>
      simp only [of, Option.bind_some, h.int64? hnumbers]
      exact .int64 _
    | binary64 fallback =>
      have hdouble := h.binary64? hnumbers
      simp only [of, Option.bind_some]
      generalize a.binary64? = x, b.binary64? = y at hdouble ⊢
      cases hdouble with
      | none => exact .binary64 (hnumbers.refl fallback)
      | some hnear => exact .binary64 hnear
    | array => exact .array h.children
    | object =>
      have hobject : a.isObject = b.isObject := by rw [Tree.isObject, Tree.isObject, h.kind]
      simp only [of, Option.filter, hobject]
      cases b.isObject with
      | true => exact .node (.some h.equal)
      | false => exact .node .none

namespace Query

/-- Queries that start at equal nodes find equal nodes, and log the same. -/
theorem find_alike {a b : Tree ν} (h : a.Alike same b) (p : Path) :
    Option.Rel (Tree.Alike same) ((⟨some a⟩ : Query ν).find p).value
        ((⟨some b⟩ : Query ν).find p).value ∧
      ((⟨some a⟩ : Query ν).find p).events = ((⟨some b⟩ : Query ν).find p).events := by
  have hwalk := h.walk p
  simp only [find]
  generalize a.walk p = arrived, b.walk p = other at hwalk ⊢
  cases hwalk with
  | error miss => exact ⟨.none, rfl⟩
  | ok related => exact ⟨.some related, rfl⟩

/-- No question tells the queries apart, whatever paths are held for either of them. -/
structure Indistinct [Numeric ν] (same : ν → ν → Bool) (near : Binary64 → Binary64 → Prop)
    (q r : Query ν) : Prop where
  answers : ∀ path question first second, Agree (Answer.Alike same near)
    (q.answer path question first).result (r.answer path question second).result
  events : ∀ path question first second,
    (q.answer path question first).events = (r.answer path question second).events
  rootArray : Option.Rel (List.Forall₂ (Tree.equal same · ·)) q.rootArray r.rootArray

theorem indistinct_of_alike [Numeric ν] (hnumbers : Numeric.Respects same near) {a b : Tree ν}
    (h : a.Alike same b) : Indistinct same near (⟨some a⟩ : Query ν) ⟨some b⟩ where
  answers path question first second := by
    rw [answer_result, answer_result]
    cases Path.read path with
    | error e => exact .error e
    | ok p => exact .ok (question.of_alike hnumbers (find_alike h p).1)
  events path question first second := by
    rw [answer_events, answer_events]
    cases Path.read path with
    | error e => rfl
    | ok p => exact (find_alike h p).2
  rootArray := h.children

/-- Documents of equal nodes are answered alike: with the same fault, or with answers in which only the
sign of a zero and the order of entries may differ. Where the nodes differ in the order of entries and
in nothing else, every number in the answers is the same, and that holds also of nodes with a double
that is no number, which are equal to none. -/
theorem answer_of_sameData :
    (∀ a b : Node, a.DistinctKeys → a.sameData b = true →
      Indistinct Number.equal Binary64.SameNumber (Document.ofNode a).toQuery
        (Document.ofNode b).toQuery) ∧
    ∀ a b : Node, a.DistinctKeys → a.Reordered b →
      Indistinct (fun m n : Number => m = n) Eq (Document.ofNode a).toQuery
        (Document.ofNode b).toQuery := by
  constructor
  · intro a b keys hsame
    exact indistinct_of_alike Number.respects_equal ⟨keys, hsame⟩
  · intro a b keys hreordered
    have hequal : a.equal (fun m n : Number => m = n) b = true :=
      (hreordered.equal (by simp) (by simp_all) keys).2
    exact indistinct_of_alike Number.respects_eq ⟨keys, hequal⟩

/-- A zero may be given with the other sign. A double that is no number is given as it is, although the
node is not equal to itself. -/
theorem answer_of_sameData_zero_and_nan :
    (Tree.DistinctKeys (.object [("x", .number (.float .zero)), ("y", .null)] : Node) ∧
      Tree.sameData (.object [("x", .number (.float .zero)), ("y", .null)])
        (.object [("y", .null), ("x", .number (.float (.ofMagnitudeBits true 0)))]) = true ∧
      Agree (Answer.Alike Number.equal Binary64.SameNumber)
        (.ok (.binary64 .zero)) ((Document.ofNode (.object
          [("y", .null), ("x", .number (.float (.ofMagnitudeBits true 0)))])).answer "x"
            (.binary64 .nan) none).result) ∧
    Tree.DistinctKeys (.object [("x", .number (.float .nan)), ("y", .null)] : Node) ∧
      Tree.Reordered (.object [("x", .number (.float .nan)), ("y", .null)] : Node)
        (.object [("y", .null), ("x", .number (.float .nan))]) ∧
      Agree (Answer.Alike (fun m n : Number => m = n) Eq) (.ok (.binary64 .nan))
        ((Document.ofNode (.object [("y", .null), ("x", .number (.float .nan))])).answer "x"
          (.binary64 .zero) none).result := by
  have hkeys (x : Binary64) :
      Tree.DistinctKeys (.object [("x", .number (.float x)), ("y", .null)] : Node) := by
    refine .object _ (by simp) ?_
    simp [Tree.DistinctKeys.number, Tree.DistinctKeys.null]
  have hsame : Tree.sameData (.object [("x", .number (.float .zero)), ("y", .null)])
      (.object [("y", .null), ("x", .number (.float (.ofMagnitudeBits true 0)))]) = true := by
    decide
  have hreordered : Tree.Reordered (.object [("x", .number (.float .nan)), ("y", .null)] : Node)
      (.object [("y", .null), ("x", .number (.float .nan))]) :=
    .entries (.swap _ _ _)
  refine ⟨⟨hkeys _, hsame, ?_⟩, hkeys _, hreordered, ?_⟩
  · exact (answer_of_sameData.1 _ _ (hkeys _) hsame).answers "x" (.binary64 .nan) none none
  · exact (answer_of_sameData.2 _ _ (hkeys _) hreordered).answers "x" (.binary64 .zero) none none

end Query

end TreePath
