import Mathlib.Algebra.Order.Field.Basic
import TradeBars.Proofs.Scalar.Laws

/-! Exact arithmetic: the values of an ordered field, where nothing is rounded and nothing
is infinite or not a number. -/
namespace TradeBars

/-- The values of a field, taken as prices and volumes. -/
def Exact (K : Type) : Type := K

namespace Exact

variable {K : Type} [Field K] [LinearOrder K]

instance : Field (Exact K) := inferInstanceAs (Field K)

instance : LinearOrder (Exact K) := inferInstanceAs (LinearOrder K)

instance [IsStrictOrderedRing K] : IsStrictOrderedRing (Exact K) :=
  inferInstanceAs (IsStrictOrderedRing K)

instance : Scalar (Exact K) where
  ofInt n := n
  lt a b := decide (a < b)
  le a b := decide (a ≤ b)
  eq a b := decide (a = b)
  isNaN _ := false
  isFinite _ := true

instance : ExactScalar (Exact K) where
  isNaN_eq _ := rfl
  zero_add := zero_add
  add_zero := add_zero
  add_assoc := add_assoc

instance : LawfulScalar (Exact K) where
  isNaN_zero := rfl
  isNaN_ofInt _ := rfl
  isNaN_add _ _ := rfl
  lt_asymm := by
    intro a b less
    simp only [Scalar.lt, decide_eq_true_eq, decide_eq_false_iff_not] at less ⊢
    exact less.not_gt
  lt_or_lt := by
    intro a b c _ less
    simp only [Scalar.lt, decide_eq_true_eq] at less ⊢
    exact (lt_or_ge a c).imp_right fun le => le.trans_lt less
  le_eq := by
    intro a b _ _
    simp only [Scalar.le, Scalar.lt, ← decide_not, not_lt]
  zero_add_same {a} _ := .inl (zero_add a)
  add_same := by
    rintro a b c (equal | ⟨za, zb⟩)
    · exact .inl (congrArg (· + c) equal)
    · simp only [Scalar.eq, decide_eq_true_eq] at za zb
      exact .inl (congrArg (· + c) (za.trans zb.symm))

end Exact

end TradeBars
