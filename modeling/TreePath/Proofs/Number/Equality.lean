import TreePath.Number.Basic
import TreePath.Proofs.Number.Whole

/-!
Equality of numbers by value. Two doubles are equal where they are the same double or two zeros, unless
they are no numbers at all; equal numbers of a document answer both questions alike, but for the sign
of a zero.
-/

namespace TreePath

namespace Binary64

variable {x y z : Binary64}

/-- The same double, or zeros of whatever sign. -/
def SameNumber (x y : Binary64) : Prop := x = y ∨ x.equal zero = true ∧ y.equal zero = true

theorem SameNumber.refl (x : Binary64) : x.SameNumber x := .inl rfl

theorem SameNumber.symm (h : x.SameNumber y) : y.SameNumber x :=
  h.imp Eq.symm And.symm

theorem SameNumber.trans (h : x.SameNumber y) (h' : y.SameNumber z) : x.SameNumber z := by
  rcases h with rfl | ⟨hx, hy⟩
  · exact h'
  · rcases h' with rfl | ⟨-, hz⟩
    · exact .inr ⟨hx, hy⟩
    · exact .inr ⟨hx, hz⟩

theorem isNaN_of_equal_zero (h : x.equal zero = true) : x.isNaN = false :=
  (ordinary_of_isFinite (equal_zero_iff.1 h).1).1

theorem SameNumber.isNaN (h : x.SameNumber y) : x.isNaN = y.isNaN := by
  rcases h with rfl | ⟨hx, hy⟩
  · rfl
  · rw [isNaN_of_equal_zero hx, isNaN_of_equal_zero hy]

theorem equal_iff : x.equal y = true ↔ x.isNaN = false ∧ x.SameNumber y := by
  have hbits : x.bits = y.bits ↔ x = y := by
    cases x
    cases y
    simp
  constructor
  · intro h
    simp only [equal, Bool.and_eq_true, Bool.or_eq_true, Bool.not_eq_true', decide_eq_true_eq,
      hbits] at h
    obtain ⟨⟨hx, -⟩, hsame | ⟨⟨⟨hfinite, hfinite'⟩, hunits⟩, hunits'⟩⟩ := h
    · exact ⟨hx, .inl hsame⟩
    · exact ⟨hx, .inr ⟨equal_zero_iff.2 ⟨hfinite, hunits⟩, equal_zero_iff.2 ⟨hfinite', hunits'⟩⟩⟩
  · rintro ⟨hx, hsame⟩
    have hy := hsame.isNaN.symm.trans hx
    simp only [equal, hx, hy, Bool.not_false, Bool.true_and, Bool.or_eq_true, Bool.and_eq_true,
      decide_eq_true_eq, hbits]
    refine hsame.imp_right fun hzero => ?_
    obtain ⟨⟨hfinite, hunits⟩, hfinite', hunits'⟩ := hzero.imp equal_zero_iff.1 equal_zero_iff.1
    exact ⟨⟨⟨hfinite, hfinite'⟩, hunits⟩, hunits'⟩

theorem toInt64?_of_equal_zero (h : x.equal zero = true) : x.toInt64? = some 0 := by
  obtain ⟨hfinite, hunits⟩ := equal_zero_iff.1 h
  refine toInt64?_eq_some_iff.2 ⟨hfinite, ?_⟩
  simp [signedUnits, hunits]

/-- Both zeros are the word zero. -/
theorem SameNumber.toInt64? (h : x.SameNumber y) : x.toInt64? = y.toInt64? := by
  rcases h with rfl | ⟨hx, hy⟩
  · rfl
  · rw [toInt64?_of_equal_zero hx, toInt64?_of_equal_zero hy]

end Binary64

namespace Number

variable {l m n : Number}

/-- Equal numbers have one form: the same integer, or doubles that are equal. -/
theorem equal_iff : m.equal n = true ↔ (∃ i, m = .integer i ∧ n = .integer i) ∨
    ∃ x y, m = .float x ∧ n = .float y ∧ x.equal y = true := by
  cases m with
  | integer i => cases n <;> simp [equal, @eq_comm _ i]
  | float x => cases n <;> simp [equal]

theorem equal_symm (h : m.equal n = true) : n.equal m = true := by
  rcases equal_iff.1 h with ⟨i, rfl, rfl⟩ | ⟨x, y, rfl, rfl, hxy⟩
  · exact h
  · obtain ⟨hx, hsame⟩ := Binary64.equal_iff.1 hxy
    exact Binary64.equal_iff.2 ⟨hsame.isNaN.symm.trans hx, hsame.symm⟩

theorem equal_trans (h : l.equal m = true) (h' : m.equal n = true) : l.equal n = true := by
  rcases equal_iff.1 h with ⟨i, rfl, rfl⟩ | ⟨x, y, rfl, rfl, hxy⟩
  · exact h'
  · rcases equal_iff.1 h' with ⟨i, himpossible, -⟩ | ⟨y', z, hy, rfl, hyz⟩
    · contradiction
    · obtain rfl := Number.float.inj hy
      obtain ⟨hx, hsame⟩ := Binary64.equal_iff.1 hxy
      exact Binary64.equal_iff.2 ⟨hx, hsame.trans (Binary64.equal_iff.1 hyz).2⟩

/-- A number equals itself unless it is a double that is no number. -/
theorem equal_self_iff : n.equal n = true ↔ ∀ x, n = .float x → x.isNaN = false := by
  cases n with
  | integer i => simp [equal]
  | float x => simp [equal, Binary64.equal_iff, Binary64.SameNumber.refl]

theorem toInt64?_of_equal (h : m.equal n = true) : m.toInt64? = n.toInt64? := by
  rcases equal_iff.1 h with ⟨i, rfl, rfl⟩ | ⟨x, y, rfl, rfl, hxy⟩
  · rfl
  · exact (Binary64.equal_iff.1 hxy).2.toInt64?

theorem sameNumber_of_equal (h : m.equal n = true) :
    m.toBinary64.SameNumber n.toBinary64 := by
  rcases equal_iff.1 h with ⟨i, rfl, rfl⟩ | ⟨x, y, rfl, rfl, hxy⟩
  · exact .refl _
  · exact (Binary64.equal_iff.1 hxy).2

end Number

end TreePath
