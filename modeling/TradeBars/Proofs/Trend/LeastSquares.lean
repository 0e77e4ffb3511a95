import TradeBars.Proofs.Scalar.Exact
import TradeBars.Proofs.Trend.Deviations
import Mathlib.Algebra.BigOperators.Intervals
import Mathlib.Algebra.BigOperators.Ring.Finset
import Mathlib.Tactic.FieldSimp
import Mathlib.Tactic.Linarith
import Mathlib.Tactic.Positivity
import Mathlib.Tactic.Ring

/-! In exact arithmetic the slope of a fit is the one of the least-squares line. The squared error of
any line is the one of the fitted line, and two squares on top of it: one for the difference of the
slopes, and one for the distance between the lines in the middle of the abscissae. -/
namespace TradeBars.Trend
open Finset

variable {K : Type} [Field K] [LinearOrder K]

/-- The squares of the distances of values, which stand at 1, 2, 3 and so on, from the line with
intercept `a` and slope `b`, added up. -/
def squaredError (ys : List (Exact K)) (a b : Exact K) : Exact K :=
  ((ys.zipIdx 1).map fun (y, x) => (y - a - b * x) ^ 2).sum

/-- No line is closer to the values. -/
def Closest (ys : List (Exact K)) (a b : Exact K) : Prop :=
  ∀ a' b', squaredError ys a b ≤ squaredError ys a' b'

theorem ofInt_natCast (n : Nat) : (Scalar.ofInt n : Exact K) = n := Int.cast_natCast n

theorem sum_eq (xs : List (Exact K)) : Scalar.sum xs = xs.sum := List.sum_eq_foldl.symm

section Values

/-- The values of a function at 0, 1, 2 and so on. -/
def values (n : Nat) (y : Nat → Exact K) : List (Exact K) := (List.range n).map y

theorem exists_values (ys : List (Exact K)) : ∃ y, ys = values ys.length y := by
  refine ⟨fun i => ys.getD i 0, List.ext_getElem (by simp [values]) ?_⟩
  intro i within _
  simp [values, within]

variable (n : Nat) (y : Nat → Exact K)

omit [Field K] [LinearOrder K] in
@[simp] theorem length_values : (values n y).length = n := by simp [values]

theorem sum_values : (values n y).sum = ∑ i ∈ range n, y i := rfl

omit [Field K] [LinearOrder K] in
theorem map_zipIdx_values {β : Type} (f : Exact K × Nat → β) (k : Nat) :
    ((values n y).zipIdx k).map f = (List.range n).map fun i => f (y i, k + i) := by
  apply List.ext_getElem
  · simp
  · intro i within _
    simp [values]

theorem sum_products : Scalar.sum (products (values n y)) =
    ∑ i ∈ range n, offset n i * (y i - mean (values n y)) := by
  rw [sum_eq, products, map_zipIdx_values, length_values]
  simp only [Nat.zero_add]
  rfl

theorem squaredError_values (a b : Exact K) :
    squaredError (values n y) a b = ∑ i ∈ range n, (y i - a - b * (i + 1 : Nat)) ^ 2 := by
  rw [squaredError, map_zipIdx_values]
  simp only [Nat.add_comm 1]
  rfl

end Values

section Lines

/-- The values with those of a line added to them. -/
def addLine (c d : Exact K) (ys : List (Exact K)) : List (Exact K) :=
  (ys.zipIdx 1).map fun (y, x) => y + (c + d * x)

theorem squaredError_addLine (c d : Exact K) (ys : List (Exact K)) (a b : Exact K) :
    squaredError (addLine c d ys) a b = squaredError ys (a - c) (b - d) := by
  obtain ⟨y, whole⟩ := exists_values ys
  generalize ys.length = n at whole
  subst whole
  have added : addLine c d (values n y) =
      values n fun i => y i + (c + d * ((i + 1 : Nat) : Exact K)) := by
    rw [addLine, map_zipIdx_values]
    simp only [Nat.add_comm 1]
    rfl
  rw [added, squaredError_values, squaredError_values]
  refine sum_congr rfl fun i _ => ?_
  ring

theorem squaredError_reverse (ys : List (Exact K)) (a b : Exact K) :
    squaredError ys.reverse a b =
      squaredError ys (a + b * ((ys.length + 1 : Nat) : Exact K)) (-b) := by
  obtain ⟨y, whole⟩ := exists_values ys
  generalize ys.length = n at *
  subst whole
  have reversed : (values n y).reverse = values n fun i => y (n - 1 - i) := by
    apply List.ext_getElem
    · simp
    · intro i _ _
      simp [values]
  rw [reversed, squaredError_values, squaredError_values, ← sum_range_reflect]
  refine sum_congr rfl fun i within => ?_
  have before : i < n := mem_range.mp within
  have back : n - 1 - (n - 1 - i) = i := by omega
  have other : n - 1 - i + 1 = n - i := by omega
  rw [back, other, Nat.cast_sub before.le]
  push_cast
  ring

end Lines

theorem middle_eq (n : Nat) : (middle n : Exact K) = (n + 1) / 2 := by
  have one : (Scalar.ofInt 1 : Exact K) = 1 := Int.cast_one
  have two : (Scalar.ofInt 2 : Exact K) = 2 := Int.cast_ofNat 2
  rw [middle, ofInt_natCast, one, two]

theorem offset_eq (n i : Nat) : (offset n i : Exact K) = i + 1 - (n + 1) / 2 := by
  rw [offset, middle_eq, ofInt_natCast, Nat.cast_succ]

variable [IsStrictOrderedRing K]

theorem mean_eq (xs : List (Exact K)) : mean xs = xs.sum / xs.length := by
  induction xs using List.reverseRecOn with
  | nil => simp [mean]
  | append_singleton xs x ih =>
    have next : ((xs.length + 1 : Nat) : Exact K) ≠ 0 := Nat.cast_ne_zero.mpr xs.length.succ_ne_zero
    rw [mean_concat, ih, ofInt_natCast, List.sum_append, List.sum_singleton, List.length_append,
      List.length_singleton]
    by_cases empty : xs.length = 0
    · simp [List.length_eq_zero_iff.mp empty]
    · have counted : (xs.length : Exact K) ≠ 0 := Nat.cast_ne_zero.mpr empty
      push_cast at next ⊢
      field_simp
      ring

section Offsets

variable (n : Nat)

theorem sum_sub (c : Exact K) :
    ∑ i ∈ range n, ((i : Exact K) + 1 - c) = n * (n + 1) / 2 - n * c := by
  induction n with
  | zero => simp
  | succ n ih =>
    rw [sum_range_succ, ih]
    push_cast
    ring

theorem sum_sub_sq (c : Exact K) : ∑ i ∈ range n, ((i : Exact K) + 1 - c) ^ 2 =
    n * (n + 1) * (2 * n + 1) / 6 - n * (n + 1) * c + n * c ^ 2 := by
  induction n with
  | zero => simp
  | succ n ih =>
    rw [sum_range_succ, ih]
    push_cast
    ring

theorem sum_offset : ∑ i ∈ range n, (offset n i : Exact K) = 0 := by
  simp only [offset_eq, sum_sub]
  ring

theorem sum_offset_sq : ∑ i ∈ range n, (offset n i : Exact K) ^ 2 = n * (n ^ 2 - 1) / 12 := by
  simp only [offset_eq, sum_sub_sq]
  ring

theorem sum_squares : Scalar.sum (squares (Exact K) n) = n * (n ^ 2 - 1) / 12 := by
  rw [sum_eq, ← sum_offset_sq]
  simp only [sq]
  rfl

variable {n}

theorem sum_squares_pos (two : 2 ≤ n) : 0 < Scalar.sum (squares (Exact K) n) := by
  have large : (2 : Exact K) ≤ n := by exact_mod_cast two
  have square : 0 < (n : Exact K) ^ 2 - 1 := by nlinarith
  rw [sum_squares]
  positivity

end Offsets

section Fit

variable {n : Nat} {y : Nat → Exact K}

/-- Where the line of the fit meets the abscissa 0. -/
def intercept (ys : List (Exact K)) : Exact K := mean ys - slope ys * middle ys.length

/-- How far a value is from the line of the fit. -/
def residual (n : Nat) (y : Nat → Exact K) (i : Nat) : Exact K :=
  y i - mean (values n y) - slope (values n y) * offset n i

theorem sum_residual (nonempty : n ≠ 0) : ∑ i ∈ range n, residual n y i = 0 := by
  have count : (n : Exact K) ≠ 0 := Nat.cast_ne_zero.mpr nonempty
  simp only [residual, sum_sub_distrib, ← mul_sum, sum_offset, sum_const, card_range, nsmul_eq_mul,
    mean_eq, sum_values, length_values]
  field_simp
  ring

theorem sum_offset_mul_residual (two : 2 ≤ n) :
    ∑ i ∈ range n, offset n i * residual n y i = 0 := by
  have positive : Scalar.sum (squares (Exact K) n) ≠ 0 := (sum_squares_pos two).ne'
  calc ∑ i ∈ range n, offset n i * residual n y i
    _ = ∑ i ∈ range n, (offset n i * (y i - mean (values n y)) -
          slope (values n y) * offset n i ^ 2) := by
      refine sum_congr rfl fun i _ => ?_
      rw [residual]
      ring
    _ = Scalar.sum (products (values n y)) -
          slope (values n y) * Scalar.sum (squares (Exact K) n) := by
      rw [sum_sub_distrib, ← mul_sum, sum_products, sum_offset_sq, sum_squares]
    _ = 0 := by
      rw [slope_eq, length_values, div_mul_cancel₀ _ positive, sub_self]

theorem squaredError_residual (two : 2 ≤ n) (a b : Exact K) :
    squaredError (values n y) a b = ∑ i ∈ range n, residual n y i ^ 2 +
      (slope (values n y) - b) ^ 2 * Scalar.sum (squares (Exact K) n) +
        n * (mean (values n y) - a - b * middle n) ^ 2 := by
  set s := slope (values n y) with slope_eq
  set m := mean (values n y) with mean_eq
  have distance (i : Nat) : (y i - a - b * (i + 1 : Nat)) ^ 2 =
      residual n y i ^ 2 + (s - b) ^ 2 * offset n i ^ 2 + (m - a - b * middle n) ^ 2 +
        (2 * (s - b) * (offset n i * residual n y i) +
          2 * (m - a - b * middle n) * residual n y i +
          2 * (s - b) * (m - a - b * middle n) * offset n i) := by
    rw [residual, offset, ofInt_natCast, ← slope_eq, ← mean_eq]
    ring
  rw [squaredError_values]
  simp only [distance, sum_add_distrib, ← mul_sum, sum_offset_mul_residual two,
    sum_residual (Nat.ne_zero_of_lt two), sum_offset, sum_offset_sq, sum_squares, sum_const,
    card_range, nsmul_eq_mul]
  ring

/-- Any line is off by what the fitted line is off, and by how it differs from that line. -/
theorem squaredError_eq {ys : List (Exact K)} (two : 2 ≤ ys.length) (a b : Exact K) :
    squaredError ys a b = squaredError ys (intercept ys) (slope ys) +
      (slope ys - b) ^ 2 * Scalar.sum (squares (Exact K) ys.length) +
        ys.length * (mean ys - a - b * middle ys.length) ^ 2 := by
  obtain ⟨y, whole⟩ := exists_values ys
  generalize ys.length = n at *
  subst whole
  rw [squaredError_residual two, squaredError_residual two, intercept, length_values]
  ring

theorem exists_closest_iff {ys : List (Exact K)} (two : 2 ≤ ys.length) (b : Exact K) :
    (∃ a, Closest ys a b) ↔ b = slope ys := by
  have squares_pos : 0 < Scalar.sum (squares (Exact K) ys.length) := sum_squares_pos two
  constructor
  · rintro ⟨a, closest⟩
    have fitted := closest (intercept ys) (slope ys)
    rw [squaredError_eq two a b] at fitted
    have gap : (slope ys - b) ^ 2 * Scalar.sum (squares (Exact K) ys.length) ≤ 0 := by
      have middle : 0 ≤ ys.length * (mean ys - a - b * middle ys.length) ^ 2 := by positivity
      linarith
    have same : (slope ys - b) ^ 2 ≤ 0 := nonpos_of_mul_nonpos_left gap squares_pos
    exact (sub_eq_zero.mp (pow_eq_zero_iff two_ne_zero |>.mp (same.antisymm (sq_nonneg _)))).symm
  · rintro rfl
    refine ⟨intercept ys, fun a' b' => ?_⟩
    rw [squaredError_eq two a' b', add_assoc]
    exact le_add_of_nonneg_right (by positivity)

end Fit

/-- The squares of the deviations of the abscissae add up to a number that is never zero. The slope
is the only one that some intercept goes with such that no line is closer to the values. So it moves
with a line that is added to them, and it turns around with them. -/
theorem slope_least_squares {ys : List (Exact K)} (two : 2 ≤ ys.length) :
    mean ys = ys.sum / ys.length ∧
    (deviations ys).2 = ys.length * ((ys.length : Exact K) ^ 2 - 1) / 12 ∧ (deviations ys).2 ≠ 0 ∧
    (∀ b, (∃ a, Closest ys a b) ↔ b = slope ys) ∧
    (∀ c d, slope (addLine c d ys) = slope ys + d) ∧
    slope ys.reverse = -slope ys := by
  have squares_eq : (deviations ys).2 = Scalar.sum (squares (Exact K) ys.length) := by
    rw [deviations_eq]
  obtain ⟨a, closest⟩ := (exists_closest_iff two _).mpr rfl
  refine ⟨mean_eq ys, squares_eq.trans (sum_squares _), ?_, exists_closest_iff two, ?_, ?_⟩
  · rw [squares_eq]
    exact (sum_squares_pos two).ne'
  · intro c d
    have long : 2 ≤ (addLine c d ys).length := by simpa [addLine] using two
    refine ((exists_closest_iff long _).mp ⟨a + c, fun a' b' => ?_⟩).symm
    rw [squaredError_addLine, squaredError_addLine, add_sub_cancel_right, add_sub_cancel_right]
    exact closest _ _
  · have long : 2 ≤ ys.reverse.length := by simpa using two
    refine ((exists_closest_iff long _).mp
      ⟨a + slope ys * ((ys.length + 1 : Nat) : Exact K), fun a' b' => ?_⟩).symm
    rw [squaredError_reverse, squaredError_reverse, neg_neg, neg_mul, add_neg_cancel_right]
    exact closest _ _

/-- Three values, and the same values with twice the abscissa taken off. -/
theorem slope_least_squares_three :
    let ys : List (Exact ℚ) := [1, 2, 6]
    2 ≤ ys.length ∧ (deviations ys).2 = 2 ∧ slope (addLine 0 (-2) ys) = slope ys + -2 ∧
      ∃ a, Closest ys a (slope ys) := by
  intro ys
  have two : 2 ≤ ys.length := by simp [ys]
  obtain ⟨-, squares, -, closest, line, -⟩ := slope_least_squares two
  refine ⟨two, squares.trans ?_, line 0 (-2), (closest _).mpr rfl⟩
  norm_num [ys]

end TradeBars.Trend
