import TreePath.Proofs.Json.Integer
import TreePath.Proofs.Query.Reroot

/-!
Integers of a text. Where a path leads to an integer literal, the answer is settled by the integer
that the literal denotes, and a document answers like the value of its text.
-/

namespace TreePath

namespace Json

/-- The literal that a path leads to in a text. -/
def literalAt? (text : String) (p : Path) : Option Literal :=
  ((literals? text).bind (Tree.at? p)).bind Tree.number?

/-- A path that leads to a number leads to the literal of that number. -/
theorem exists_literalAt? {text : String} {v : Value} {p : Path} {x : Number}
    (hv : read? text = some v) (hx : v.at? p = some (.number x)) :
    ∃ l, literalAt? text p = some l ∧ l.number? = some x := by
  obtain ⟨t, ht, rfl⟩ := exists_tree_of_read? hv
  rw [Tree.at?_map] at hx
  obtain ⟨node, hnode, hx⟩ := Option.map_eq_some_iff.1 hx
  cases node with
  | number m =>
    refine ⟨m.literal, ?_, ?_⟩
    · rw [literalAt?, ht, Option.bind_some, Tree.at?_map, hnode]
      rfl
    · rw [m.denotes, Tree.number.inj hx]
  | _ => simp [Tree.map] at hx

end Json

/-- The 64-bit answer where the text has an integer: the integer where it fits, the least word for
the few integers that are nearest to it among the doubles, and else the fallback. -/
def int64Answer (n : Int) (fallback : Int64) : Int64 :=
  if -2 ^ 63 ≤ n ∧ n ≤ 2 ^ 63 - 1 then Int64.ofInt n
  else if -2 ^ 63 - 1024 ≤ n ∧ n < -2 ^ 63 then Int64.minValue
  else fallback

/-- The 32-bit answer where the text has an integer: the integer if it fits, else the fallback. -/
def int32Answer (n : Int) (fallback : Int32) : Int32 :=
  if -2 ^ 31 ≤ n ∧ n ≤ 2 ^ 31 - 1 then Int32.ofInt n else fallback

theorem getD_integerWord? (n : Int) (fallback : Int64) :
    (Json.integerWord? n).getD fallback = int64Answer n fallback := by
  unfold Json.integerWord? int64Answer
  rw [int64?_eq_ite]
  by_cases hfits : -2 ^ 63 ≤ n ∧ n ≤ 2 ^ 63 - 1
  · rw [if_neg (by omega), if_pos hfits, if_pos hfits]
    rfl
  · rw [if_neg hfits, if_neg hfits]
    split <;> rfl

/-- The integers that are read as another word fit no shorter word either. -/
theorem getD_integerWord?_bind (n : Int) (fallback : Int32) :
    ((Json.integerWord? n).bind fun w => int32? w.toInt).getD fallback =
      int32Answer n fallback := by
  have hanswer : (int32? n).getD fallback = int32Answer n fallback := by
    rw [int32?_eq_ite, int32Answer]
    split <;> rfl
  rw [← hanswer]
  unfold Json.integerWord?
  split
  · next h =>
    rw [Option.bind_some, Int64.toInt_minValue, int32?_eq_ite, int32?_eq_ite, if_neg (by omega),
      if_neg (by omega)]
  · cases hword : int64? n with
    | some w => rw [Option.bind_some, int64?_eq_some_iff.1 hword]
    | none =>
      rw [int64?_eq_ite] at hword
      have hrange : ¬ (-2 ^ 63 ≤ n ∧ n ≤ 2 ^ 63 - 1) := by
        intro hfits
        rw [if_pos hfits] at hword
        contradiction
      rw [int32?_eq_ite, if_neg (by omega)]
      rfl

namespace Query

/-- Where a path leads to an integer literal, a document and the value of the text are both answered
with the integer that the literal denotes, for every fallback and every cache. -/
theorem answer_integer_literal {text path : String} {v : Json.Value} {p : Path} {x : Json.Number}
    (hv : Json.read? text = some v) (hp : Path.read path = .ok p)
    (hx : v.at? p = some (.number x)) :
    ∃ l d, Json.literalAt? text p = some l ∧ Document.read? text = some d ∧
      (l.isInteger = true → ∀ (cache : Option PathCache) (long : Int64) (short : Int32),
        (d.getInt64 path long cache).result = .ok (int64Answer l.toInt long) ∧
        ((ofTree v).value.getInt64 path long cache).result = .ok (int64Answer l.toInt long) ∧
        (d.getInt32 path short cache).result = .ok (int32Answer l.toInt short) ∧
        ((ofTree v).value.getInt32 path short cache).result =
          .ok (int32Answer l.toInt short)) := by
  obtain ⟨l, hl, hnumber⟩ := Json.exists_literalAt? hv hx
  refine ⟨l, .ofValue v, hl, by rw [Document.read?, hv]; rfl, ?_⟩
  intro hinteger cache long short
  obtain ⟨hword, hdocument⟩ := Json.Literal.toInt64?_of_isInteger hinteger hnumber
  have hvalueNode : ((ofTree v).value.find p).value = some (.number x) := by
    rw [ofTree, find_ofOption, Option.bind_some, hx]
  have hdocumentNode : ((Document.ofValue v).find p).value = some (.number x.toDocument) := by
    rw [find_value]
    exact (Tree.at?_map Json.Number.toDocument p v).trans (by rw [hx]; rfl)
  have hvalueWord : (Tree.number x).int64? = Json.integerWord? l.toInt := hword
  have hdocumentWord : (Tree.number x.toDocument).int64? = Json.integerWord? l.toInt := hdocument
  refine ⟨?_, ?_, ?_, ?_⟩
  · rw [getInt64, get_of_read _ _ hp, hdocumentNode, Option.bind_some, hdocumentWord,
      getD_integerWord?]
  · rw [getInt64, get_of_read _ _ hp, hvalueNode, Option.bind_some, hvalueWord, getD_integerWord?]
  · rw [getInt32, get_of_read _ _ hp, hdocumentNode, Option.bind_some, hdocumentWord,
      getD_integerWord?_bind]
  · rw [getInt32, get_of_read _ _ hp, hvalueNode, Option.bind_some, hvalueWord,
      getD_integerWord?_bind]

/-- The least integer that only an unsigned word holds is answered with the fallback. -/
theorem answer_integer_literal_unsigned :
    Json.read? "\x7b\"a\":[9223372036854775808]\x7d" =
      some (.object [("a", .array [.number (.integer 9223372036854775808 (by decide))])]) ∧
    Path.read "a[0]" = .ok ⟨[⟨"a", [0]⟩], by simp⟩ ∧
    ∃ d, Document.read? "\x7b\"a\":[9223372036854775808]\x7d" = some d ∧
      (d.getInt64 "a[0]" 5 none).result = .ok 5 := by
  have hv : Json.read? "\x7b\"a\":[9223372036854775808]\x7d" =
      some (.object [("a", .array [.number (.integer 9223372036854775808 (by decide))])]) := rfl
  have hp : Path.read "a[0]" = .ok ⟨[⟨"a", [0]⟩], by simp⟩ := rfl
  obtain ⟨l, d, hl, hd, hanswer⟩ := answer_integer_literal hv hp rfl
  have hl' : l = ⟨false, "9223372036854775808".toList, [], none⟩ :=
    Option.some.inj (hl.symm.trans (by decide +kernel))
  subst hl'
  refine ⟨hv, hp, d, hd, ?_⟩
  rw [(hanswer rfl none 5 0).1]
  decide

/-- The integer before the least word is no word, but the double nearest to it is one. -/
theorem answer_below_least_word :
    (Json.literalAt? "\x7b\"a\":-9223372036854775809\x7d" ⟨[⟨"a", []⟩], by simp⟩).map
      (fun l => (l.isInteger, l.toInt)) = some (true, -2 ^ 63 - 1) ∧
    (Document.read? "\x7b\"a\":-9223372036854775809\x7d").map
      (fun d => (d.getInt64 "a" 0 none).result) = some (.ok (-9223372036854775808)) ∧
    (Json.read? "\x7b\"a\":-9223372036854775809\x7d").map
      (fun v => ((ofTree v).value.getInt64 "a" 0 none).result) =
        some (.ok (-9223372036854775808)) ∧
    (.ok (-9223372036854775808) : Except PathError Int64) ≠ .ok 0 := by
  decide +kernel

end Query

end TreePath
