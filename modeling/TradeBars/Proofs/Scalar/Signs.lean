import TradeBars.Proofs.Scalar.Binary64

/-! Signs of binary64 sums and products. Rounding keeps the sign, and it gives zero only where
bits below the least exponent are lost, which no sum has. So values that are not negative add up
to zero only if each of them is zero. -/
namespace TradeBars.Binary64
open Float.Model UnpackedFloat

section Rounding

variable {spec : Format}

/-- A mantissa and an exponent that are in the range of a format. -/
structure Fits (spec : Format) (m : Nat) (e : Int) : Prop where
  mantissa : m < 2 ^ spec.mantissaBits
  exponent : spec.minExponent ≤ e

theorem mantissa_shiftRight (em : ExtendedMantissa) (k : Nat) :
    (em >>> k).mantissa = em.mantissa / 2 ^ k := by
  induction k with
  | zero => simp [HShiftRight.hShiftRight, Nat.repeat]
  | succ k ih =>
    change (em >>> k).mantissa / 2 = _
    rw [ih, Nat.div_div_eq_div_mul, Nat.pow_succ]

theorem mantissa_shiftToTargetExponent (m : Nat) (e : Int) (accuracy : Accuracy) :
    (shiftToTargetExponent spec m e accuracy).1.mantissa =
      m / 2 ^ (spec.targetExponent (totalExponent m e) - e).toNat := by
  rw [shiftToTargetExponent, shiftToExponent, mantissa_shiftRight]
  cases accuracy with
  | exact => rfl
  | inexact place => cases place <;> rfl

theorem fits_shiftToTargetExponent (m : Nat) (e : Int) (accuracy : Accuracy) :
    Fits spec (shiftToTargetExponent spec m e accuracy).1.mantissa
      (shiftToTargetExponent spec m e accuracy).2 where
  mantissa := by
    rw [mantissa_shiftToTargetExponent, Nat.div_lt_iff_lt_mul (by positivity), ← Nat.pow_add]
    refine Nat.lt_log2_self.trans_le (Nat.pow_le_pow_right Nat.two_pos ?_)
    simp only [Format.targetExponent, totalExponent]
    omega
  exponent := by
    simp only [shiftToTargetExponent, shiftToExponent, Format.targetExponent]
    omega

/-- From the least exponent on, a shift leaves the first bit. -/
theorem mantissa_pos_shiftToTargetExponent {m : Nat} {e : Int} (positive : 0 < m)
    (low : spec.minExponent ≤ e) (accuracy : Accuracy) :
    0 < (shiftToTargetExponent spec m e accuracy).1.mantissa := by
  rw [mantissa_shiftToTargetExponent]
  apply Nat.div_pos _ (by positivity)
  refine (Nat.pow_le_pow_right Nat.two_pos ?_).trans (Nat.log2_self_le positive.ne')
  simp only [Format.targetExponent, totalExponent, Format.mantissaBits]
  omega

theorem mantissa_le_roundedMantissa (em : ExtendedMantissa) : em.mantissa ≤ em.roundedMantissa := by
  obtain ⟨m, round, sticky⟩ := em
  cases round <;> cases sticky <;>
    simp [ExtendedMantissa.roundedMantissa, ExtendedMantissa.accuracy,
      Accuracy.roundToNearestEven]

theorem roundWithAccuracy_of_low {m : Nat} {e : Int} (s : Sign) (positive : 0 < m)
    (low : spec.minExponent ≤ e) (accuracy : Accuracy) :
    ∃ n d h, roundWithAccuracy spec s m e accuracy = .finite s n d h ∧ Fits spec n d := by
  have once : Fits spec _ _ := fits_shiftToTargetExponent m e accuracy
  have rounded := (mantissa_pos_shiftToTargetExponent positive low accuracy).trans_le
    (mantissa_le_roundedMantissa _)
  have left := mantissa_pos_shiftToTargetExponent rounded once.exponent .exact
  refine ⟨_, _, left, ?_, fits_shiftToTargetExponent _ _ _⟩
  unfold roundWithAccuracy
  exact dif_neg left.ne'

theorem round_of_low {m : Nat} {e : Int} (s : Sign) (positive : 0 < m)
    (low : spec.minExponent ≤ e) :
    ∃ n d h, round spec s m e = .finite s n d h ∧ Fits spec n d := by
  apply roundWithAccuracy_of_low
  · rw [Nat.shiftLeft_eq]
    positivity
  · have target : spec.minExponent ≤ spec.targetExponent (totalExponent m e) := le_max_right _ _
    omega

theorem normalize_natCast (spec : Format) {m : Nat} (positive : 0 < m) (e : Int) (zero : Sign) :
    UnpackedFloat.normalize spec m e zero = round spec .positive m e := by
  have above : compare (m : Int) 0 = .gt := compare_gt_iff_gt.mpr (Nat.cast_pos.mpr positive)
  rw [UnpackedFloat.normalize, above, Int.toNat_natCast]

end Rounding

section Packing

/-- The sign of a number. -/
def sign? : UnpackedFloat → Option Sign
  | .infinity s | .zero s | .finite s _ _ _ => some s
  | .notANumber => none

theorem sign?_roundWithAccuracy (spec : Format) (s : Sign) (m : Nat) (e : Int)
    (accuracy : Accuracy) : sign? (roundWithAccuracy spec s m e accuracy) = some s := by
  unfold roundWithAccuracy
  dsimp only
  split <;> rfl

theorem unpack_packedInfinity (spec : Format) (s : Sign) :
    unpack spec (packedInfinity spec s) = .infinity s := by
  simp [UnpackedFloat.unpack, packedInfinity]

/-! The exponent field of a normal value is neither the one of zeros and the least values nor the one
of infinities and not-a-number. -/

theorem field_ne_zero {field : Nat} (positive : 0 < field) (fits : field < 2 ^ 11) :
    BitVec.ofNat 11 field ≠ 0#11 := by
  intro zero
  have isZero := congrArg BitVec.toNat zero
  rw [BitVec.toNat_ofNat, Nat.mod_eq_of_lt fits, BitVec.toNat_zero] at isZero
  omega

theorem field_ne_ones {field : Nat} (fits : field + 1 < 2 ^ 11) :
    BitVec.ofNat 11 field ≠ -1#11 := by
  intro ones
  have all := congrArg BitVec.toNat ones
  rw [BitVec.toNat_ofNat, Nat.mod_eq_of_lt (by omega), BitVec.neg_one_eq_allOnes,
    BitVec.toNat_allOnes] at all
  omega

theorem sign?_unpack_packComponents {spec : Format} (s : Sign) {e : BitVec spec.exponentBits}
    (m : BitVec spec.mantissaBitsWithoutImplicit) (number : e ≠ -1#_) :
    sign? (unpack spec (packComponents spec s e m)) = some s := by
  simp only [UnpackedFloat.unpack, unpackSign_packComponents, unpackExponent_packComponents,
    Sign.ofBitVec_toBitVec, if_neg number]
  split
  · split <;> rfl
  · rfl

theorem unpack_packComponents_ne_zero {spec : Format} (s : Sign) {e : BitVec spec.exponentBits}
    {m : BitVec spec.mantissaBitsWithoutImplicit} (nonzero : e = 0#_ → m ≠ 0#_) (t : Sign) :
    unpack spec (packComponents spec s e m) ≠ .zero t := by
  simp only [UnpackedFloat.unpack, unpackExponent_packComponents, unpackMantissa_packComponents]
  split
  · split <;> nofun
  · split
    · next small =>
      rw [dif_neg (nonzero small)]
      nofun
    · nofun

theorem fits_binary64 {m : Nat} {e : Int} : Fits .binary64 m e ↔ m < 2 ^ 53 ∧ -1074 ≤ e :=
  ⟨fun fits => ⟨fits.mantissa, fits.exponent⟩, fun ⟨mantissa, exponent⟩ => ⟨mantissa, exponent⟩⟩

theorem sign?_unpack_pack (u : UnpackedFloat) :
    sign? (unpack .binary64 (UnpackedFloat.pack .binary64 u)) = sign? u := by
  cases u with
  | notANumber => rw [UnpackedFloat.pack, unpack_packedNaN]
  | infinity s => rw [UnpackedFloat.pack, unpack_packedInfinity]
  | zero s => rw [UnpackedFloat.pack, unpack_packedZero]
  | finite s m e positive =>
    unfold UnpackedFloat.pack
    dsimp only
    split
    · rw [unpack_packedInfinity]
      rfl
    · next small =>
      split
      · exact sign?_unpack_packComponents s _ (field_ne_ones (by omega))
      · exact sign?_unpack_packComponents s _ (by decide)

theorem unpack_pack_ne_zero {m : Nat} {e : Int} (fits : Fits .binary64 m e) (positive : 0 < m)
    (s t : Sign) :
    unpack .binary64 (UnpackedFloat.pack .binary64 (.finite s m e positive)) ≠ .zero t := by
  obtain ⟨mantissa, exponent⟩ := fits_binary64.mp fits
  have bits : Format.mantissaBits .binary64 = 53 := by decide
  have bias : Format.exponentBias .binary64 = 1023 := by decide
  unfold UnpackedFloat.pack
  dsimp only
  split
  · rw [unpack_packedInfinity]
    nofun
  · next small =>
    rw [bias] at small
    rw [bias, bits]
    split
    · apply unpack_packComponents_ne_zero
      intro zeros
      exact absurd zeros (field_ne_zero (by omega) (by omega))
    · next short =>
      apply unpack_packComponents_ne_zero
      intro _ zeros
      have isZero := congrArg BitVec.toNat zeros
      have log : m.log2 < 53 := (Nat.log2_lt positive.ne').mpr mantissa
      have few : m < 2 ^ 52 := (Nat.log2_lt positive.ne').mp (by omega)
      rw [BitVec.toNat_ofNat, Nat.mod_eq_of_lt few] at isZero
      exact positive.ne' isZero

/-- A mantissa has all its bits, unless its exponent is the least one. -/
def Canonical (m : Nat) (e : Int) : Prop :=
  m < 2 ^ 52 ∧ e = -1074 ∨ 2 ^ 52 ≤ m ∧ m < 2 ^ 53 ∧ -1074 ≤ e

theorem canonical_of_unpack {bits : BitVec (Format.numBits .binary64)} {s : Sign} {m : Nat}
    {e : Int} {positive : 0 < m} (found : unpack .binary64 bits = .finite s m e positive) :
    Canonical m e := by
  have bias : Format.exponentBias .binary64 = 1023 := by decide
  unfold UnpackedFloat.unpack at found
  dsimp only at found
  rw [bias] at found
  split at found
  · split at found <;> contradiction
  · split at found
    · next zero =>
      split at found
      · contradiction
      · injection found with _ mantissa exponent
        have short : (unpackMantissa bits).toNat < 2 ^ 52 := (unpackMantissa bits).isLt
        have least : (unpackExponent bits).toNat = 0 := by rw [zero]; rfl
        left
        omega
    · next nonzero =>
      injection found with _ mantissa exponent
      have short : (1#1 ++ unpackMantissa bits).toNat < 2 ^ 53 := (1#1 ++ unpackMantissa bits).isLt
      have first : 2 ^ 52 ≤ (1#1 ++ unpackMantissa bits).toNat := by
        rw [BitVec.toNat_append]
        exact Nat.left_le_or
      have fieldNonzero : (unpackExponent bits).toNat ≠ 0 :=
        fun isZero => nonzero (BitVec.eq_of_toNat_eq isZero)
      right
      omega

theorem fits_of_unpack {bits : BitVec (Format.numBits .binary64)} {s : Sign} {m : Nat} {e : Int}
    {positive : 0 < m} (found : unpack .binary64 bits = .finite s m e positive) :
    Fits .binary64 m e := by
  rw [fits_binary64]
  have canonical := canonical_of_unpack found
  unfold Canonical at canonical
  omega

end Packing

section Positive

/-- A value above zero that is in range. -/
inductive Positive (spec : Format) : UnpackedFloat → Prop
  | infinity : Positive spec (.infinity .positive)
  | finite {m : Nat} {e : Int} {h : 0 < m} (fits : Fits spec m e) :
      Positive spec (.finite .positive m e h)

theorem positive_of_unpack {bits : BitVec (Format.numBits .binary64)}
    (sign : sign? (unpack .binary64 bits) = some .positive)
    (nonzero : ∀ t, unpack .binary64 bits ≠ .zero t) :
    Positive .binary64 (unpack .binary64 bits) := by
  cases found : unpack .binary64 bits with
  | notANumber => rw [found] at sign; contradiction
  | zero s => exact absurd found (nonzero s)
  | infinity s =>
    rw [found] at sign
    obtain rfl := Option.some.inj sign
    exact .infinity
  | finite s m e positive =>
    rw [found] at sign
    obtain rfl := Option.some.inj sign
    exact .finite (fits_of_unpack found)

theorem Positive.unpack_pack {u : UnpackedFloat} (positive : Positive .binary64 u) :
    Positive .binary64 (unpack .binary64 (UnpackedFloat.pack .binary64 u)) := by
  apply positive_of_unpack
  · rw [sign?_unpack_pack]
    cases positive <;> rfl
  · intro t
    cases positive with
    | infinity =>
      rw [UnpackedFloat.pack, unpack_packedInfinity]
      nofun
    | finite fits => exact unpack_pack_ne_zero fits _ _ t

theorem Positive.add {spec : Format} {u v : UnpackedFloat} (left : Positive spec u)
    (right : Positive spec v) : Positive spec (UnpackedFloat.add spec u v) := by
  cases left with
  | infinity => cases right <;> exact .infinity
  | @finite m e hm fits =>
    cases right with
    | infinity => exact .infinity
    | @finite n d hn others =>
      -- both exponents go down to the lesser one, so that no bit of either mantissa is lost
      have both : 0 < m <<< (e - min e d).toNat + n <<< (d - min e d).toNat := by
        rw [Nat.shiftLeft_eq, Nat.shiftLeft_eq]
        positivity
      obtain ⟨_, _, _, rounded, fits⟩ :=
        round_of_low .positive both (le_min fits.exponent others.exponent)
      have sum : UnpackedFloat.add spec (.finite .positive m e hm) (.finite .positive n d hn) = _ :=
        (normalize_natCast spec both (min e d) .positive).trans rounded
      rw [sum]
      exact .finite fits

end Positive

section Nonnegative

theorem le_zero_iff (x : Float) :
    Scalar.le 0 x = true ↔ sign? x.toModel.unpack = some .positive ∨ Scalar.eq x 0 = true := by
  rw [le_eq_unpack, eq_zero_iff]
  change (UnpackedFloat.zero .positive).le x.toModel.unpack = true ↔ _
  cases x.toModel.unpack with
  | notANumber => simp [UnpackedFloat.le, UnpackedFloat.compare, sign?]
  | infinity s => cases s <;> simp [UnpackedFloat.le, UnpackedFloat.compare, sign?]
  | zero s => simp [UnpackedFloat.le, UnpackedFloat.compare]
  | finite s m e _ => cases s <;> simp [UnpackedFloat.le, UnpackedFloat.compare, sign?]

theorem add_zero_of_ne_zero (spec : Format) (s : Sign) {u : UnpackedFloat}
    (nonzero : ∀ t, u ≠ .zero t) : UnpackedFloat.add spec u (.zero s) = u := by
  cases u with
  | zero t => exact absurd rfl (nonzero t)
  | notANumber | infinity | finite => rfl

theorem positive_of_le {x : Float} (le : Scalar.le 0 x = true) (nonzero : Scalar.eq x 0 = false) :
    Positive .binary64 x.toModel.unpack := by
  rw [le_zero_iff, nonzero, or_iff_left Bool.false_ne_true] at le
  rw [Bool.eq_false_iff, ne_eq, eq_zero_iff, not_exists] at nonzero
  exact positive_of_unpack le nonzero

theorem le_of_positive {x : Float} (positive : Positive .binary64 x.toModel.unpack) :
    Scalar.le 0 x = true ∧ Scalar.eq x 0 = false := by
  rw [le_zero_iff, Bool.eq_false_iff, ne_eq, eq_zero_iff]
  generalize x.toModel.unpack = u at positive
  cases positive with
  | infinity => exact ⟨.inl rfl, nofun⟩
  | finite => exact ⟨.inl rfl, nofun⟩

theorem le_zero_of_same {x y : Float} (same : Scalar.Same x y) (le : Scalar.le 0 y = true) :
    Scalar.le 0 x = true := by
  cases same with
  | inl equal => rwa [equal]
  | inr zeros => exact (le_zero_iff x).mpr (.inr zeros.1)

theorem eq_zero_of_same {x y : Float} (same : Scalar.Same x y) (zero : Scalar.eq x 0 = true) :
    Scalar.eq y 0 = true := by
  cases same with
  | inl equal => rwa [← equal]
  | inr zeros => exact zeros.2

theorem add_zero_of_nonzero {x y : Float} (nonzero : Scalar.eq x 0 = false)
    (zero : Scalar.eq y 0 = true) : x + y = x := by
  obtain ⟨s, zero⟩ := (eq_zero_iff y).mp zero
  rw [Bool.eq_false_iff, ne_eq, eq_zero_iff, not_exists] at nonzero
  have sum : x + y = ⟨.pack (.add .binary64 x.toModel.unpack (.zero s))⟩ := zero ▸ rfl
  rw [sum, add_zero_of_ne_zero _ _ nonzero, pack_unpack]

/-- Values that are not negative have such a sum, which is zero only if both of them are. -/
theorem add_nonneg {x y : Float} (hx : Scalar.le 0 x = true) (hy : Scalar.le 0 y = true) :
    Scalar.le 0 (x + y) = true ∧
      (Scalar.eq (x + y) 0 = true → Scalar.eq x 0 = true ∧ Scalar.eq y 0 = true) := by
  cases zx : Scalar.eq x 0 with
  | true =>
    obtain ⟨s, zero⟩ := (eq_zero_iff x).mp zx
    have same := zero_add_cases zero y
    exact ⟨le_zero_of_same same hy, fun sumZero => ⟨rfl, eq_zero_of_same same sumZero⟩⟩
  | false =>
    have px := positive_of_le hx zx
    cases zy : Scalar.eq y 0 with
    | true =>
      rw [add_zero_of_nonzero zx zy, zx]
      exact ⟨hx, fun sumZero => ⟨sumZero, rfl⟩⟩
    | false =>
      have sum := (px.add (positive_of_le hy zy)).unpack_pack
      obtain ⟨le, nonzero⟩ := le_of_positive (x := x + y) sum
      rw [nonzero]
      exact ⟨le, nofun⟩

theorem zero_mul_of_finite (spec : Format) (s : Sign) {u : UnpackedFloat}
    (finite : u.isFinite = true) :
    (∃ t, UnpackedFloat.mul spec (.zero s) u = .zero t) ∧
      ∃ t, UnpackedFloat.mul spec u (.zero s) = .zero t := by
  cases u with
  | notANumber | infinity => contradiction
  | zero | finite => exact ⟨⟨_, rfl⟩, _, rfl⟩

theorem mul_nonneg {x y : Float} (hx : Scalar.le 0 x = true) (hy : Scalar.le 0 y = true)
    (fx : Scalar.isFinite x = true) (fy : Scalar.isFinite y = true) :
    Scalar.le 0 (x * y) = true := by
  have product : (x * y).toModel.unpack = unpack .binary64 (UnpackedFloat.pack .binary64
    (UnpackedFloat.mul .binary64 x.toModel.unpack y.toModel.unpack)) := rfl
  have fx : x.toModel.unpack.isFinite = true := fx
  have fy : y.toModel.unpack.isFinite = true := fy
  rw [le_zero_iff, eq_zero_iff, product]
  cases zx : Scalar.eq x 0 with
  | true =>
    obtain ⟨s, zero⟩ := (eq_zero_iff x).mp zx
    obtain ⟨⟨t, product⟩, -⟩ := zero_mul_of_finite .binary64 s fy
    rw [zero, product]
    exact .inr ⟨t, unpack_packedZero⟩
  | false =>
    cases zy : Scalar.eq y 0 with
    | true =>
      obtain ⟨s, zero⟩ := (eq_zero_iff y).mp zy
      obtain ⟨-, t, product⟩ := zero_mul_of_finite .binary64 s fx
      rw [zero, product]
      exact .inr ⟨t, unpack_packedZero⟩
    | false =>
      have px := positive_of_le hx zx
      have py := positive_of_le hy zy
      left
      rw [sign?_unpack_pack]
      generalize x.toModel.unpack = u at px fx
      generalize y.toModel.unpack = v at py fy
      cases px with
      | infinity => contradiction
      | finite =>
        cases py with
        | infinity => contradiction
        | finite => exact sign?_roundWithAccuracy _ _ _ _ _

/-- The sum of values that are not negative is zero only if all of them are. -/
theorem sum_nonneg {xs : List Float} (nonneg : ∀ x ∈ xs, Scalar.le 0 x = true) :
    Scalar.le 0 (Scalar.sum xs) = true ∧
      (Scalar.eq (Scalar.sum xs) 0 = true ↔ ∀ x ∈ xs, Scalar.eq x 0 = true) := by
  induction xs using List.reverseRecOn with
  | nil => exact ⟨rfl, fun _ => nofun, fun _ => rfl⟩
  | append_singleton xs x ih =>
    rw [List.forall_mem_append, List.forall_mem_singleton] at nonneg
    obtain ⟨le, zero⟩ := ih nonneg.1
    obtain ⟨both, bothZero⟩ := add_nonneg le nonneg.2
    rw [Scalar.sum_concat, List.forall_mem_append, List.forall_mem_singleton, ← zero]
    refine ⟨both, bothZero, ?_⟩
    intro ⟨front, last⟩
    obtain ⟨s, unpacked⟩ := (eq_zero_iff _).mp front
    exact eq_zero_of_same (zero_add_cases unpacked x).symm last

end Nonnegative

end TradeBars.Binary64
