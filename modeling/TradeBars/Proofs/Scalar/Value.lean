import TradeBars.Proofs.Scalar.Signs

/-! The rational numbers that binary64 values are. Zero, of either sign, is the one that is zero,
and the comparison of magnitudes with a power of two is the one of rational numbers: a mantissa has
all its bits unless its exponent is the least one. -/
namespace TradeBars.Binary64
open Float.Model UnpackedFloat

/-- What an unpacked value is, if it is a finite number. -/
def rational? : UnpackedFloat → Option ℚ
  | .zero _ => some 0
  | .finite s m e _ => some (s.apply m * 2 ^ e)
  | .infinity _ | .notANumber => none

/-- The rational number that a finite value is. -/
def value? (x : Float) : Option ℚ := rational? x.toModel.unpack

section Zero

theorem rational?_eq_zero_iff (u : UnpackedFloat) : rational? u = some 0 ↔ ∃ s, u = .zero s := by
  cases u with
  | infinity | notANumber => simp [rational?]
  | zero s => simp [rational?]
  | finite s m e positive =>
    have power : (2 : ℚ) ^ e ≠ 0 := zpow_ne_zero e two_ne_zero
    cases s <;> simp [rational?, Sign.apply, positive.ne', power]

theorem value?_eq_zero_iff (x : Float) : value? x = some 0 ↔ Scalar.eq x 0 = true := by
  rw [eq_zero_iff, value?, rational?_eq_zero_iff]

theorem ofInt_ne_zero {n : Int} (nonzero : n ≠ 0) (t : Sign) :
    (ofInt n).toModel.unpack ≠ .zero t := by
  have least : Format.minExponent .binary64 ≤ 0 := by decide
  have rounded (s : Sign) {m : Nat} (positive : 0 < m) :
      unpack .binary64 (UnpackedFloat.pack .binary64 (round .binary64 s m 0)) ≠ .zero t := by
    obtain ⟨_, _, nonzero, same, fits⟩ := round_of_low s positive least
    rw [same]
    exact unpack_pack_ne_zero fits nonzero s t
  change unpack .binary64 (UnpackedFloat.pack .binary64
    (UnpackedFloat.normalize .binary64 n 0 .positive)) ≠ _
  rcases lt_or_gt_of_ne nonzero with below | above
  · rw [UnpackedFloat.normalize, compare_lt_iff_lt.mpr below]
    exact rounded .negative (by omega)
  · rw [UnpackedFloat.normalize, compare_gt_iff_gt.mpr above]
    exact rounded .positive (by omega)

theorem value?_ofInt_eq_zero_iff (n : Int) : value? (ofInt n) = some 0 ↔ n = 0 := by
  constructor
  · intro zero
    by_contra nonzero
    obtain ⟨t, unpacked⟩ := (rational?_eq_zero_iff _).mp zero
    exact ofInt_ne_zero nonzero t unpacked
  · rintro rfl
    rfl

end Zero

section Magnitude

/-- Bits that came from unpacking come back, whatever was packed in between. -/
theorem unpack_pack_unpack (b : BitVec (Format.numBits .binary64)) :
    unpack .binary64 (UnpackedFloat.pack .binary64 (unpack .binary64 b)) = unpack .binary64 b := by
  rw [UnpackedFloat.pack_unpack]
  split
  · next nan =>
    rw [isNaNBits, decide_eq_true_eq] at nan
    rw [unpack_packedNaN, UnpackedFloat.unpack, if_pos nan.1, if_neg nan.2]
  · rfl

theorem unpack_pack_abs (b : BitVec (Format.numBits .binary64)) :
    unpack .binary64 (UnpackedFloat.pack .binary64 (unpack .binary64 b).abs) =
      (unpack .binary64 b).abs := by
  -- the same bits with the sign cleared
  have same : unpack .binary64
      (packComponents .binary64 .positive (unpackExponent b) (unpackMantissa b)) =
        (unpack .binary64 b).abs := by
    simp only [UnpackedFloat.unpack, unpackSign_packComponents, unpackExponent_packComponents,
      unpackMantissa_packComponents, Sign.ofBitVec_toBitVec]
    split
    · split <;> rfl
    · split
      · split <;> rfl
      · rfl
  rw [← same, unpack_pack_unpack]

theorem magnitude_lt_iff {m n : Nat} {d e : Int} (left : Canonical m d) (right : Canonical n e) :
    (m : ℚ) * 2 ^ d < n * 2 ^ e ↔ d < e ∨ d = e ∧ m < n := by
  have above {m n : Nat} {d e : Int} (left : Canonical m d) (right : Canonical n e) (below : d < e) :
      (m : ℚ) * 2 ^ d < n * 2 ^ e := by
    unfold Canonical at left right
    have small : (m : ℚ) < 2 ^ 53 := by exact_mod_cast (show m < 2 ^ 53 by omega)
    have large : (2 : ℚ) ^ 52 ≤ n := by exact_mod_cast (show 2 ^ 52 ≤ n by omega)
    have exponent : (2 : ℚ) ^ (d + 1) ≤ 2 ^ e := zpow_le_zpow_right₀ one_le_two below
    calc (m : ℚ) * 2 ^ d
      _ < 2 ^ 53 * 2 ^ d := mul_lt_mul_of_pos_right small (by positivity)
      _ = 2 ^ 52 * 2 ^ (d + 1) := by rw [zpow_add_one₀ two_ne_zero]; ring
      _ ≤ n * 2 ^ e := mul_le_mul large exponent (by positivity) (by positivity)
  rcases lt_trichotomy d e with below | rfl | below
  · simp [below, above left right below]
  · have power : (0 : ℚ) < 2 ^ d := by positivity
    simp [mul_lt_mul_iff_left₀ power]
  · simp [below.not_gt, below.ne', (above right left below).not_gt]

theorem unpack_abs (x : Float) : x.abs.toModel.unpack = x.toModel.unpack.abs :=
  unpack_pack_abs x.toModel.toBits.toBitVec

end Magnitude

section Order

variable {x y : Float} {p q : ℚ}

/-- A number is a zero, or a mantissa and an exponent. -/
theorem unpack_of_value? (hx : value? x = some p) :
    (∃ s, x.toModel.unpack = .zero s ∧ p = 0) ∨
      ∃ s m e h, x.toModel.unpack = .finite s m e h ∧ p = s.apply m * 2 ^ e := by
  unfold value? at hx
  cases found : x.toModel.unpack with
  | notANumber | infinity => rw [found] at hx; contradiction
  | zero s =>
    rw [found] at hx
    exact .inl ⟨s, rfl, (Option.some.inj hx).symm⟩
  | finite s m e positive =>
    rw [found] at hx
    exact .inr ⟨s, m, e, positive, rfl, (Option.some.inj hx).symm⟩

/-- The comparison of finite values is the one of their numbers. -/
theorem lt_iff_value? (hx : value? x = some p) (hy : value? y = some q) :
    Scalar.lt x y = true ↔ p < q := by
  have positive {m : Nat} (h : 0 < m) (e : Int) : (0 : ℚ) < m * 2 ^ e := by positivity
  rw [lt_eq_unpack]
  rcases unpack_of_value? hx with ⟨s, left, rfl⟩ | ⟨s, m, d, hm, left, rfl⟩
  · rcases unpack_of_value? hy with ⟨t, right, rfl⟩ | ⟨t, n, e, hn, right, rfl⟩
    · rw [left, right, lt_iff_rank (by simp) (by simp)]
      simp [rank]
    · have above := positive hn e
      rw [left, right, lt_iff_rank (by simp) (by simp)]
      cases t <;> simp [rank, Prod.Lex.toLex_lt_toLex, Sign.apply, above, above.le]
  · have above := positive hm d
    rcases unpack_of_value? hy with ⟨t, right, rfl⟩ | ⟨t, n, e, hn, right, rfl⟩
    · rw [left, right, lt_iff_rank (by simp) (by simp)]
      cases s <;> simp [rank, Prod.Lex.toLex_lt_toLex, Sign.apply, above, above.le]
    · have above' := positive hn e
      have order := magnitude_lt_iff (canonical_of_unpack left) (canonical_of_unpack right)
      have order' := magnitude_lt_iff (canonical_of_unpack right) (canonical_of_unpack left)
      have below : -((m : ℚ) * 2 ^ d) < n * 2 ^ e := (neg_lt_zero.mpr above).trans above'
      have below' : -((n : ℚ) * 2 ^ e) < m * 2 ^ d := (neg_lt_zero.mpr above').trans above
      rw [left, right, lt_iff_rank (by simp) (by simp)]
      cases s <;> cases t <;>
        simp [rank, Prod.Lex.toLex_lt_toLex, Sign.apply, order, order', below, below'.le,
          eq_comm (a := d)]

theorem rank_injective {u v : UnpackedFloat} (hu : ∃ s m e h, u = .finite s m e h)
    (hv : ∃ s m e h, v = .finite s m e h) (same : rank u = rank v) : u = v := by
  obtain ⟨s, m, d, hm, rfl⟩ := hu
  obtain ⟨t, n, e, hn, rfl⟩ := hv
  cases s <;> cases t <;> simp [rank] at same <;> simp [same]

theorem exists_finite_of_value? (hx : value? x = some p) (nonzero : p ≠ 0) :
    ∃ s m e h, x.toModel.unpack = .finite s m e h := by
  rcases unpack_of_value? hx with ⟨s, found, zero⟩ | ⟨s, m, e, h, found, -⟩
  · contradiction
  · exact ⟨s, m, e, h, found⟩

theorem isNaN_of_value? (hx : value? x = some p) : Scalar.isNaN x = false := by
  rw [isNaN_iff_unpack]
  rcases unpack_of_value? hx with ⟨s, found, -⟩ | ⟨s, m, e, h, found, -⟩
  · simp [found]
  · simp [found]

/-- Two values that are one number are the same, but for the sign of zero. -/
theorem same_of_value? (hx : value? x = some p) (hy : value? y = some p) : Scalar.Same x y := by
  by_cases zero : p = 0
  · subst zero
    exact .inr ⟨(value?_eq_zero_iff x).mp hx, (value?_eq_zero_iff y).mp hy⟩
  · have left := exists_finite_of_value? hx zero
    have right := exists_finite_of_value? hy zero
    have isLeft := (isNaN_iff_unpack x).mp (isNaN_of_value? hx)
    have isRight := (isNaN_iff_unpack y).mp (isNaN_of_value? hy)
    have order := (lt_iff_value? hx hy).not.mpr (lt_irrefl p)
    have order' := (lt_iff_value? hy hx).not.mpr (lt_irrefl p)
    rw [lt_eq_unpack, lt_iff_rank isLeft isRight, not_lt] at order
    rw [lt_eq_unpack, lt_iff_rank isRight isLeft, not_lt] at order'
    have unpacked := rank_injective left right (le_antisymm order' order)
    have model : x.toModel = y.toModel := by rw [← pack_unpack x.toModel, unpacked, pack_unpack]
    exact .inl (congrArg Float.ofModel model)

theorem value?_abs (hx : value? x = some p) : value? x.abs = some |p| := by
  rw [value?, unpack_abs]
  rcases unpack_of_value? hx with ⟨s, found, rfl⟩ | ⟨s, m, e, positive, found, rfl⟩
  · simp [found, rational?, UnpackedFloat.abs]
  · have power : (0 : ℚ) < 2 ^ e := by positivity
    cases s <;> simp [found, rational?, UnpackedFloat.abs, Sign.apply, abs_mul, abs_of_pos power]

/-- A value is below a finite bound in magnitude exactly if it is a number that is. -/
theorem abs_lt_iff {bound : Float} {b : ℚ} (isBound : value? bound = some b) (x : Float) :
    x.abs < bound ↔ ∃ q, value? x = some q ∧ |q| < b := by
  have lower : x.abs < bound ↔ Scalar.lt x.abs bound = true := decide_eq_true_iff.symm
  rw [lower]
  cases isValue : value? x with
  | some q => simpa using lt_iff_value? (value?_abs isValue) isBound
  | none =>
    unfold value? at isValue isBound
    have above : x.toModel.unpack.abs.lt bound.toModel.unpack = false := by
      cases found : x.toModel.unpack with
      | zero | finite => rw [found] at isValue; contradiction
      | notANumber => rfl
      | infinity s =>
        cases limit : bound.toModel.unpack with
        | notANumber | infinity => rw [limit] at isBound; contradiction
        | zero | finite => rfl
    simp [lt_eq_unpack, unpack_abs, above]

end Order

end TradeBars.Binary64
