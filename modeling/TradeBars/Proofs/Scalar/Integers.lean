import Mathlib.Data.Rat.Floor
import TradeBars.Proofs.Scalar.Exponents
import TradeBars.Proofs.Scalar.Value

/-! Integers as binary64 values and back. Up to `2 ^ 53` in magnitude an integer is a value without
loss, and what a value is cut to is the integer part of its number, towards zero. -/
namespace TradeBars.Binary64
open Float.Model UnpackedFloat

section Exactness

/-- A mantissa that has all its bits is left as it is. -/
theorem shiftToTargetExponent_of_bits {m : Nat} {e : Int} (log : m.log2 = 52) (low : -1074 ≤ e) :
    shiftToTargetExponent .binary64 m e .exact = (.ofMantissaAndAccuracy m .exact, e) := by
  have shift : (Format.targetExponent .binary64 (totalExponent m e) - e).toNat = 0 := by
    rw [targetExponent_binary64, totalExponent]
    omega
  simp only [shiftToTargetExponent, shiftToExponent, shift, Int.natCast_zero, Int.add_zero]
  rfl

theorem roundWithAccuracy_of_bits {m : Nat} {e : Int} (s : Sign) (positive : 0 < m)
    (log : m.log2 = 52) (low : -1074 ≤ e) :
    roundWithAccuracy .binary64 s m e .exact = .finite s m e positive := by
  have rounded : ExtendedMantissa.roundedMantissa (.ofMantissaAndAccuracy m .exact) = m := rfl
  simp only [roundWithAccuracy, shiftToTargetExponent_of_bits log low, rounded]
  exact dif_neg positive.ne'

theorem round_of_few_bits {m : Nat} (s : Sign) (positive : 0 < m) (few : m.log2 ≤ 52) :
    ∃ h, round .binary64 s m 0 = .finite s (m * 2 ^ (52 - m.log2)) (m.log2 - 52) h := by
  have target : Format.targetExponent .binary64 (totalExponent m 0) = m.log2 - 52 := by
    rw [targetExponent_binary64, totalExponent]
    omega
  have shift : (0 - ((m.log2 : Int) - 52)).toNat = 52 - m.log2 := by omega
  have exponent : (0 : Int) - ((52 - m.log2 : Nat) : Int) = m.log2 - 52 := by omega
  have log : (m * 2 ^ (52 - m.log2)).log2 = 52 := by
    rw [← Nat.shiftLeft_eq, log2_shiftLeft positive]
    omega
  have scaled : 0 < m * 2 ^ (52 - m.log2) := by positivity
  simp only [UnpackedFloat.round, decreaseExponent, target, shift, exponent, Nat.shiftLeft_eq]
  exact ⟨scaled, roundWithAccuracy_of_bits s scaled log (by omega)⟩

theorem rational?_round {m : Nat} (s : Sign) (positive : 0 < m) (few : m < 2 ^ 53) :
    rational? (unpack .binary64 (UnpackedFloat.pack .binary64 (round .binary64 s m 0))) =
      some (s.apply m : ℚ) := by
  have log : m.log2 ≤ 52 := Nat.le_of_lt_succ ((Nat.log2_lt positive.ne').mpr few)
  have normal : Normal s (-52) 1 (round .binary64 s m 0) := by
    apply normal_round s positive <;> omega
  obtain ⟨_, rounded⟩ := round_of_few_bits s positive log
  -- the bits that were added and the exponent that was lowered for them
  have power : (2 : ℚ) ^ (52 - m.log2) * 2 ^ ((m.log2 : ℤ) - 52) = 1 := by
    rw [← zpow_natCast, ← zpow_add₀ two_ne_zero, ← zpow_zero 2]
    congr 1
    omega
  rw [unpack_pack_of_normal normal (by omega) (by omega), rounded]
  cases s <;> simp [rational?, Sign.apply, mul_assoc, power]

/-- An integer that is not above `2 ^ 53` in magnitude is a value. -/
theorem value?_ofInt {n : ℤ} (small : |n| ≤ 2 ^ 53) : value? (ofInt n) = some (n : ℚ) := by
  change rational? (unpack .binary64 (UnpackedFloat.pack .binary64
    (UnpackedFloat.normalize .binary64 n 0 .positive))) = _
  obtain ⟨lower, upper⟩ := abs_le.mp small
  rcases eq_or_ne n (2 ^ 53) with rfl | last
  · change rational? (.finite .positive (2 ^ 52) 1 (by decide)) = _
    norm_num [rational?, Sign.apply]
  rcases eq_or_ne n (-2 ^ 53) with rfl | first
  · change rational? (.finite .negative (2 ^ 52) 1 (by decide)) = _
    norm_num [rational?, Sign.apply]
  have few : n.natAbs < 2 ^ 53 := by omega
  rcases lt_trichotomy n 0 with below | rfl | above
  · have magnitude : (-n).toNat = n.natAbs := by omega
    have signed : -(n.natAbs : ℤ) = n := by omega
    rw [UnpackedFloat.normalize, compare_lt_iff_lt.mpr below, magnitude]
    exact (rational?_round .negative (by omega) few).trans (by rw [Sign.apply, signed])
  · exact (value?_ofInt_eq_zero_iff 0).mpr rfl
  · have magnitude : n.toNat = n.natAbs := by omega
    have signed : (n.natAbs : ℤ) = n := by omega
    rw [UnpackedFloat.normalize, compare_gt_iff_gt.mpr above, magnitude]
    exact (rational?_round .positive (by omega) few).trans (by rw [Sign.apply, signed])

end Exactness

section Cutting

/-- The integer part of a number. -/
def towardsZero (q : ℚ) : ℤ := if 0 ≤ q then ⌊q⌋ else ⌈q⌉

theorem towardsZero_intCast (n : ℤ) : towardsZero n = n := by
  simp [towardsZero]

theorem towardsZero_neg (q : ℚ) : towardsZero (-q) = -towardsZero q := by
  rcases lt_trichotomy q 0 with below | rfl | above
  · simp [towardsZero, below.le, below.not_ge, Int.floor_neg]
  · simp [towardsZero]
  · simp [towardsZero, above.le, above.not_ge, Int.ceil_neg]

theorem towardsZero_nonpos {q : ℚ} (less : q < 1) : towardsZero q ≤ 0 := by
  unfold towardsZero
  split
  · exact Int.lt_add_one_iff.mp (by simpa [Int.floor_lt] using less)
  · next below => exact Int.ceil_le.mpr (by simpa using (not_le.mp below).le)

/-- The integer that a value is cut to between two bounds. -/
inductive CutTo (low high : ℤ) (x : Float) : ℤ → Prop where
  | number {q : ℚ} : value? x = some q → CutTo low high x (max low (min high (towardsZero q)))
  | above : x.toModel.unpack = .infinity .positive → CutTo low high x high
  | below : x.toModel.unpack = .infinity .negative → CutTo low high x low
  | notANumber : Scalar.isNaN x = true → CutTo low high x 0

theorem floor_mul_zpow (m : Nat) (e : ℤ) :
    ⌊(m : ℚ) * 2 ^ e⌋ = ((m <<< e.toNat / 2 ^ (-e).toNat : Nat) : ℤ) := by
  have power : (2 : ℚ) ^ e = 2 ^ e.toNat / 2 ^ (-e).toNat := by
    rw [← zpow_natCast, ← zpow_natCast, ← zpow_sub₀ two_ne_zero]
    congr 1
    omega
  have number : (m : ℚ) * 2 ^ e = (m <<< e.toNat : Nat) / (2 ^ (-e).toNat : Nat) := by
    rw [power, Nat.shiftLeft_eq]
    push_cast
    ring
  rw [number, Rat.floor_natCast_div_natCast, Int.natCast_div]

theorem roundToInt_eq (s : Sign) (m : Nat) (e : ℤ) :
    roundToInt s m e = towardsZero (s.apply m * 2 ^ e) := by
  have exponent : (0 - (e - e.toNat)).toNat = (-e).toNat := by omega
  have cut : roundToInt s m e = s.apply (m <<< e.toNat / 2 ^ (-e).toNat : Nat) := by
    simp only [roundToInt, decreaseExponent, shiftToExponent, mantissa_shiftRight, sub_zero,
      exponent]
    rfl
  have whole : towardsZero ((m : ℚ) * 2 ^ e) = (m <<< e.toNat / 2 ^ (-e).toNat : Nat) := by
    rw [towardsZero, if_pos (by positivity), floor_mul_zpow]
  rw [cut, ← whole]
  cases s with
  | positive => simp [Sign.apply]
  | negative => simp [Sign.apply, towardsZero_neg]

theorem truncate_of_value? {low high : ℤ} {x : Float} {q : ℚ} (number : value? x = some q) :
    truncate low high x = max low (min high (towardsZero q)) := by
  have cut : toInt low high x.toModel.unpack = towardsZero q := by
    rcases unpack_of_value? number with ⟨s, found, rfl⟩ | ⟨s, m, e, _, found, rfl⟩
    · rw [found]
      simp [toInt, towardsZero]
    · rw [found]
      exact roundToInt_eq s m e
  rw [truncate, cut]

theorem cutTo_truncate {low high : ℤ} (least : low ≤ 0) (most : 0 ≤ high) (x : Float) :
    CutTo low high x (truncate low high x) := by
  cases number : value? x with
  | some q =>
    rw [truncate_of_value? number]
    exact .number number
  | none =>
    unfold value? at number
    have cut : truncate low high x = max low (min high (toInt low high x.toModel.unpack)) := rfl
    cases found : x.toModel.unpack with
    | zero | finite => rw [found] at number; contradiction
    | notANumber =>
      have zero : truncate low high x = 0 := by
        rw [cut, found, toInt]
        omega
      rw [zero]
      exact .notANumber (UnpackedFloat.isNaN_iff.mpr found)
    | infinity s =>
      cases s with
      | positive =>
        have bound : truncate low high x = high := by
          rw [cut, found, toInt]
          omega
        rw [bound]
        exact .above found
      | negative =>
        have bound : truncate low high x = low := by
          rw [cut, found, toInt]
          omega
        rw [bound]
        exact .below found

/-- A value that is an integer between two bounds. -/
def Integral (low high : ℤ) (x : Float) : Prop :=
  ∃ n : ℤ, value? x = some (n : ℚ) ∧ low ≤ n ∧ n ≤ high

theorem Integral.mono {low low' high high' : ℤ} {x : Float} (integral : Integral low high x)
    (below : low' ≤ low) (above : high ≤ high') : Integral low' high' x := by
  obtain ⟨n, number, lower, upper⟩ := integral
  exact ⟨n, number, below.trans lower, upper.trans above⟩

theorem truncate_ofInt {low high n : ℤ} (small : |n| ≤ 2 ^ 53) (lower : low ≤ n) (upper : n ≤ high) :
    truncate low high (ofInt n) = n := by
  rw [truncate_of_value? (value?_ofInt small), towardsZero_intCast, min_eq_right upper,
    max_eq_right lower]

theorem Integral.same_ofInt {low high : ℤ} {x : Float} (whole : Integral (-2 ^ 53) (2 ^ 53) x)
    (inside : Integral low high x) : Scalar.Same (ofInt (truncate low high x)) x := by
  obtain ⟨n, number, lower, upper⟩ := inside
  obtain ⟨n', number', small⟩ := whole
  obtain rfl : n' = n := by
    rw [number] at number'
    exact_mod_cast (Option.some.inj number').symm
  rw [truncate_of_value? number, towardsZero_intCast, min_eq_right upper, max_eq_right lower]
  exact same_of_value? (value?_ofInt (abs_le.mpr small)) number

end Cutting

end TradeBars.Binary64
