import TradeBars.Proofs.Scalar.Exponents
import TradeBars.Proofs.Scalar.Numbers
import TradeBars.Proofs.Trend.Deviations

/-! Means and fits of binary64 values. Not-a-number among the values goes through to the result. Of
finite values the result is a number, unless a sum overflows on the way to it: what is divided by is
never zero. For a mean that is the number of values, and for a fit it is a sum of squares that comes
from the number of values alone. -/
namespace TradeBars.Trend
open Binary64

section Mean

/-- No mean of the first values overflows. -/
def SteadyMean (xs : List Float) : Prop := ∀ front ∈ xs.inits, (mean front).isInf = false

instance (xs : List Float) : Decidable (SteadyMean xs) :=
  inferInstanceAs (Decidable (∀ front ∈ xs.inits, _))

variable {xs : List Float}

theorem isNaN_mean_of_mem {x : Float} (member : x ∈ xs) (nan : Scalar.isNaN x = true) :
    Scalar.isNaN (mean xs) = true := by
  induction xs using List.reverseRecOn with
  | nil => contradiction
  | append_singleton xs y ih =>
    rw [mean_concat]
    cases List.mem_append.mp member with
    | inl front => exact isNaN_add_left (ih front) _
    | inr last =>
      obtain rfl := List.mem_singleton.mp last
      exact isNaN_add_right _ (isNaN_div_left (isNaN_sub_left nan _) _)

theorem SteadyMean.front {x : Float} (steady : SteadyMean (xs ++ [x])) : SteadyMean xs := by
  intro front begins
  rw [List.mem_inits] at begins
  exact steady front (List.mem_inits _ _ |>.mpr (begins.trans (List.prefix_append _ _)))

theorem isFinite_mean (finite : ∀ x ∈ xs, Scalar.isFinite x = true) (steady : SteadyMean xs)
    (few : xs.length < 2 ^ 64) : Scalar.isFinite (mean xs) = true := by
  induction xs using List.reverseRecOn with
  | nil => rfl
  | append_singleton xs x ih =>
    rw [List.length_append, List.length_singleton] at few
    rw [List.forall_mem_append, List.forall_mem_singleton] at finite
    have before := ih finite.1 steady.front (by omega)
    obtain ⟨count, nonzero⟩ :=
      (normal_ofInt (n := xs.length + 1) (k := 0) (by omega) few).finite_nonzero
    have share : Scalar.isNaN ((x - mean xs) / Scalar.ofInt (xs.length + 1 : Nat)) = false :=
      isNaN_div (isNaN_sub finite.2 before) (isNaN_of_isFinite count) nonzero (.inr count)
    have bounded := steady _ ((List.mem_inits _ _).mpr List.prefix_rfl)
    rw [mean_concat] at bounded ⊢
    exact isFinite_of_number (isNaN_add before share) bounded

end Mean

section Abscissae

variable {n i : Nat}

theorem normal_one : Normal .positive (-52) (-52) (ofInt 1).toModel.unpack :=
  .finite (by decide) (by decide) (by decide) (by decide)

/-- The middle is about half the number of values. -/
theorem normal_middle {k : Nat} (above : 2 ^ k ≤ n) (below : n < 2 ^ 64) :
    Normal .positive (k - 53) 14 (middle n : Float).toModel.unpack := by
  have sum := normal_add (normal_ofInt above below) (normal_one.mono le_rfl (by decide)) (by omega)
  have half := normal_half (sum.pack (by omega) (by decide)) (by omega) (by decide)
  exact (half.pack (by omega) (by decide)).mono (by omega) le_rfl

theorem isFinite_offset (within : i < n) (below : n < 2 ^ 64) :
    Scalar.isFinite (offset n i : Float) = true := by
  have abscissa := normal_ofInt (n := i + 1) (k := 0) (by omega) (by omega)
  have middle : Normal .positive _ _ (middle n : Float).toModel.unpack :=
    normal_middle (k := 0) (by omega) below
  have difference : (offset n i : Float) = Float.ofModel (.pack (.sub .binary64
    (ofInt (i + 1 : Nat)).toModel.unpack (Trend.middle n : Float).toModel.unpack)) := rfl
  rw [difference]
  rcases normal_sub abscissa middle (by decide) with ⟨zero, -⟩ | ⟨s, normal⟩
  · rw [zero]
    rfl
  · exact (normal.pack (by decide) (by decide)).finite_nonzero.1

/-- Of four abscissae and more, the first one is below the middle by so much that its square is not
lost. -/
theorem square_nonzero (four : 2 ^ 2 ≤ n) (below : n < 2 ^ 64) :
    Scalar.eq (offset n 0 * offset n 0 : Float) 0 = false := by
  have middle : Normal .positive _ _ (middle n : Float).toModel.unpack := normal_middle four below
  rcases normal_sub normal_one middle (by decide) with ⟨-, same⟩ | ⟨s, normal⟩
  · exact absurd same (by decide)
  · have offset : Normal s _ _ (offset n 0 : Float).toModel.unpack :=
      normal.pack (by decide) (by decide)
    have square : Normal (s * s) _ _ (Trend.offset n 0 * Trend.offset n 0 : Float).toModel.unpack :=
      (normal_mul offset offset (by decide)).pack (by decide) (by decide)
    exact square.finite_nonzero.2

/-- The sum of the squares of the deviations of the abscissae. -/
theorem squares_nonzero (three : 3 ≤ n) (below : n < 2 ^ 64) :
    Scalar.isNaN (Scalar.sum (squares Float n)) = false ∧
      Scalar.eq (Scalar.sum (squares Float n)) 0 = false := by
  have nonneg : ∀ x ∈ squares Float n, Scalar.le 0 x = true := by
    intro x member
    obtain ⟨i, within, rfl⟩ := List.mem_map.mp member
    exact mul_self_nonneg (isFinite_offset (List.mem_range.mp within) below)
  have first : (offset n 0 * offset n 0 : Float) ∈ squares Float n :=
    List.mem_map.mpr ⟨0, List.mem_range.mpr (by omega), rfl⟩
  have nonzero : Scalar.eq (offset n 0 * offset n 0 : Float) 0 = false := by
    rcases Nat.eq_or_lt_of_le three with rfl | four
    · decide
    · exact square_nonzero four below
  obtain ⟨le, zero⟩ := sum_nonneg nonneg
  refine ⟨isNaN_of_nonneg le, ?_⟩
  rw [Bool.eq_false_iff]
  intro all
  rw [zero.mp all _ first] at nonzero
  contradiction

end Abscissae

section Slope

/-- No sum of a fit overflows: none of a mean, no distance of a value from the mean of all, and none
of the products of the deviations. -/
def SteadyFit (ys : List Float) : Prop :=
  SteadyMean ys ∧ (∀ y ∈ ys, (y - mean ys).isInf = false) ∧
    ∀ front ∈ (products ys).inits, (Scalar.sum front).isInf = false

instance (ys : List Float) : Decidable (SteadyFit ys) := inferInstanceAs (Decidable (_ ∧ _))

variable {ys : List Float}

theorem isNaN_slope_of_mem {y : Float} (member : y ∈ ys) (nan : Scalar.isNaN y = true) :
    Scalar.isNaN (slope ys) = true := by
  have mean := isNaN_mean_of_mem member nan
  obtain ⟨i, within, found⟩ := List.getElem_of_mem member
  have product : offset ys.length i * (ys[i] - Trend.mean ys) ∈ products ys :=
    List.mem_map.mpr ⟨(ys[i], i), List.mk_mem_zipIdx_iff_getElem?.mpr (by simp [within]), rfl⟩
  rw [slope_eq]
  exact isNaN_div_left (isNaN_sum_of_mem product (isNaN_mul_right _ (isNaN_sub_right _ mean))) _

theorem isNaN_slope (finite : ∀ y ∈ ys, Scalar.isFinite y = true) (steady : SteadyFit ys)
    (three : 3 ≤ ys.length) (few : ys.length < 2 ^ 64) : Scalar.isNaN (slope ys) = false := by
  obtain ⟨steady, near, bounded⟩ := steady
  have mean := isFinite_mean finite steady few
  have numbers : ∀ p ∈ products ys, Scalar.isNaN p = false := by
    intro p member
    obtain ⟨⟨y, i⟩, place, rfl⟩ := List.mem_map.mp member
    have value : y ∈ ys := List.fst_mem_of_mem_zipIdx place
    have within : i < ys.length := List.snd_lt_of_mem_zipIdx place
    have deviation := isFinite_of_number (isNaN_sub (finite y value) mean) (near y value)
    exact isNaN_mul (isFinite_offset within few) deviation
  have sum := isFinite_sum numbers bounded
  obtain ⟨number, nonzero⟩ := squares_nonzero three few
  rw [slope_eq]
  exact isNaN_div (isNaN_of_isFinite sum) number nonzero (.inl sum)

end Slope

end TradeBars.Trend
