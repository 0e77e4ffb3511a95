import TradeBars.Proofs.Scalar.Signs

/-! Exponents of binary64 results. A result has the exponent that brings its first bit to the front,
or one more where the mantissa is rounded up to a power of two. So bounds on the exponents of the
operands are bounds on the exponent of what is made of them, and as long as those are in range no
result is lost to zero or to infinity. -/
namespace TradeBars.Binary64
open Float.Model UnpackedFloat

/-- A value that has all the bits of its mantissa, with an exponent between two bounds. -/
inductive Normal (s : Sign) (low high : Int) : UnpackedFloat → Prop
  | finite {m : Nat} {e : Int} {h : 0 < m} (first : 2 ^ 52 ≤ m) (last : m < 2 ^ 53)
      (lower : low ≤ e) (upper : e ≤ high) : Normal s low high (.finite s m e h)

theorem Normal.mono {s : Sign} {low low' high high' : Int} {u : UnpackedFloat}
    (normal : Normal s low high u) (below : low' ≤ low) (above : high ≤ high') :
    Normal s low' high' u := by
  obtain ⟨first, last, lower, upper⟩ := normal
  exact ⟨first, last, below.trans lower, upper.trans above⟩

section Rounding

theorem targetExponent_binary64 (t : Int) :
    Format.targetExponent .binary64 t = max (t - 53) (-1074) := rfl

theorem roundedMantissa_le (em : ExtendedMantissa) : em.roundedMantissa ≤ em.mantissa + 1 := by
  obtain ⟨m, round, sticky⟩ := em
  cases round <;> cases sticky <;>
    simp [ExtendedMantissa.roundedMantissa, ExtendedMantissa.accuracy,
      Accuracy.roundToNearestEven]
  omega

theorem exponent_shiftToTargetExponent (spec : Format) (m : Nat) (e : Int) (accuracy : Accuracy) :
    (shiftToTargetExponent spec m e accuracy).2 =
      e + (spec.targetExponent (totalExponent m e) - e).toNat := rfl

/-- A mantissa with bits to spare is cut to its first 53. -/
theorem shiftToTargetExponent_of_full {m : Nat} {e : Int} (full : 52 ≤ m.log2)
    (low : -1074 ≤ m.log2 + e - 52) (accuracy : Accuracy) :
    2 ^ 52 ≤ (shiftToTargetExponent .binary64 m e accuracy).1.mantissa ∧
      (shiftToTargetExponent .binary64 m e accuracy).1.mantissa < 2 ^ 53 ∧
      (shiftToTargetExponent .binary64 m e accuracy).2 = m.log2 + e - 52 := by
  have nonzero : m ≠ 0 := by
    rintro rfl
    contradiction
  have shift : (Format.targetExponent .binary64 (totalExponent m e) - e).toNat = m.log2 - 52 := by
    rw [targetExponent_binary64, totalExponent]
    omega
  rw [mantissa_shiftToTargetExponent, exponent_shiftToTargetExponent, shift]
  refine ⟨?_, ?_, by omega⟩
  · rw [Nat.le_div_iff_mul_le (by positivity), ← Nat.pow_add, Nat.add_sub_cancel' full]
    exact Nat.log2_self_le nonzero
  · rw [Nat.div_lt_iff_lt_mul (by positivity), ← Nat.pow_add]
    have width : 53 + (m.log2 - 52) = m.log2 + 1 := by omega
    rw [width]
    exact Nat.lt_log2_self

theorem normal_roundWithAccuracy {m : Nat} {e low high : Int} (s : Sign) (accuracy : Accuracy)
    (full : 52 ≤ m.log2) (least : -1074 ≤ low) (lower : low ≤ m.log2 + e - 52)
    (upper : m.log2 + e - 52 < high) :
    Normal s low high (roundWithAccuracy .binary64 s m e accuracy) := by
  obtain ⟨first, last, exponent⟩ := shiftToTargetExponent_of_full full (least.trans lower) accuracy
  -- rounding up to a power of two is what needs the second shift
  generalize shifted : shiftToTargetExponent .binary64 m e accuracy = cut at first last exponent
  have enough := first.trans (mantissa_le_roundedMantissa cut.1)
  have most := roundedMantissa_le cut.1
  have positive : cut.1.roundedMantissa ≠ 0 := by omega
  have full' : 52 ≤ cut.1.roundedMantissa.log2 := (Nat.le_log2 positive).mpr enough
  have short : cut.1.roundedMantissa.log2 < 54 := (Nat.log2_lt positive).mpr (by omega)
  obtain ⟨first', last', exponent'⟩ := shiftToTargetExponent_of_full
    (m := cut.1.roundedMantissa) (e := cut.2) full' (by omega) .exact
  unfold roundWithAccuracy
  rw [shifted]
  dsimp only
  rw [dif_neg (by omega)]
  exact .finite first' last' (by omega) (by omega)

theorem log2_shiftLeft {m : Nat} (positive : 0 < m) (k : Nat) : (m <<< k).log2 = m.log2 + k := by
  rw [Nat.shiftLeft_eq, Nat.log2_eq_iff (by positivity)]
  have low := Nat.log2_self_le positive.ne'
  have high := Nat.lt_log2_self (n := m)
  constructor
  · rw [Nat.pow_add]
    exact Nat.mul_le_mul_right _ low
  · rw [Nat.add_right_comm, Nat.pow_add]
    exact Nat.mul_lt_mul_of_pos_right high (by positivity)

theorem normal_round {m : Nat} {e low high : Int} (s : Sign) (positive : 0 < m)
    (least : -1074 ≤ low) (lower : low ≤ m.log2 + e - 52) (upper : m.log2 + e - 52 < high) :
    Normal s low high (round .binary64 s m e) := by
  have target : Format.targetExponent .binary64 (totalExponent m e) = m.log2 + e - 52 := by
    rw [targetExponent_binary64, totalExponent]
    omega
  unfold UnpackedFloat.round decreaseExponent
  dsimp only
  rw [target]
  have width := log2_shiftLeft positive (e - (m.log2 + e - 52)).toNat
  apply normal_roundWithAccuracy <;> omega

end Rounding

section Packing

/-- A mantissa without its first bit, and with it again. -/
theorem toNat_one_append_ofNat {m : Nat} (first : 2 ^ 52 ≤ m) (last : m < 2 ^ 53) :
    (1#1 ++ BitVec.ofNat 52 m).toNat = m := by
  have rest : m % 2 ^ 52 < 2 ^ 52 := Nat.mod_lt m (by positivity)
  rw [BitVec.toNat_append, BitVec.toNat_ofNat, Nat.shiftLeft_eq]
  change 1 * 2 ^ 52 ||| m % 2 ^ 52 = m
  rw [Nat.one_mul, Nat.or_comm, Nat.or_two_pow_eq_add_of_lt rest]
  omega

/-- A normal value is packed without loss. -/
theorem unpack_pack_of_normal {s : Sign} {low high : Int} {u : UnpackedFloat}
    (normal : Normal s low high u) (least : -1074 ≤ low) (most : high ≤ 971) :
    unpack .binary64 (UnpackedFloat.pack .binary64 u) = u := by
  obtain @⟨m, e, positive, first, last, lower, upper⟩ := normal
  have bits : Format.mantissaBits .binary64 = 53 := by decide
  have bias : Format.exponentBias .binary64 = 1023 := by decide
  have log : m.log2 = 52 := (Nat.log2_eq_iff positive.ne').mpr ⟨first, last⟩
  rw [UnpackedFloat.pack, bias, bits, log]
  dsimp only
  generalize biased : (e + (1023 : Nat) + (52 : Nat)).toNat = field
  rw [if_neg (by omega), if_pos rfl]
  simp only [UnpackedFloat.unpack, unpackSign_packComponents, unpackExponent_packComponents,
    unpackMantissa_packComponents, Sign.ofBitVec_toBitVec]
  rw [if_neg (field_ne_ones (by omega)), if_neg (field_ne_zero (by omega) (by omega))]
  congr 1
  · exact toNat_one_append_ofNat first last
  · rw [bias, BitVec.toNat_ofNat, Nat.mod_eq_of_lt (by omega)]
    omega

end Packing

section Operations

theorem normal_normalize {n e low high : Int} (nonzero : n ≠ 0) (zero : Sign)
    (least : -1074 ≤ low) (lower : low ≤ n.natAbs.log2 + e - 52)
    (upper : n.natAbs.log2 + e - 52 < high) :
    ∃ s, Normal s low high (UnpackedFloat.normalize .binary64 n e zero) := by
  have positive : 0 < n.natAbs := Int.natAbs_pos.mpr nonzero
  unfold UnpackedFloat.normalize
  rcases lt_or_gt_of_ne nonzero with below | above
  · have magnitude : (-n).toNat = n.natAbs := by omega
    rw [compare_lt_iff_lt.mpr below, magnitude]
    exact ⟨_, normal_round .negative positive least lower upper⟩
  · have magnitude : n.toNat = n.natAbs := by omega
    rw [compare_gt_iff_gt.mpr above, magnitude]
    exact ⟨_, normal_round .positive positive least lower upper⟩

theorem le_shiftLeft {m : Nat} (first : 2 ^ 52 ≤ m) (k : Nat) : 2 ^ (52 + k) ≤ m <<< k := by
  rw [Nat.shiftLeft_eq, Nat.pow_add]
  exact Nat.mul_le_mul_right _ first

/-- A mantissa that goes down from one exponent to another, bounded by what comes from above. -/
theorem shiftLeft_lt (least : Int) {m : Nat} {e top : Int} (last : m < 2 ^ 53) (upper : e ≤ top) :
    m <<< (e - least).toNat < 2 ^ (53 + (top - least).toNat) := by
  have width : (e - least).toNat ≤ (top - least).toNat := by omega
  rw [Nat.shiftLeft_eq, Nat.pow_add]
  exact Nat.mul_lt_mul_of_lt_of_le last (Nat.pow_le_pow_right Nat.two_pos width) (by positivity)

variable {low high low' high' : Int} {u v : UnpackedFloat}

theorem normal_add (hu : Normal .positive low high u) (hv : Normal .positive low' high v)
    (least : -1074 ≤ low) :
    Normal .positive low (high + 2) (UnpackedFloat.add .binary64 u v) := by
  obtain @⟨m, e, hm, first, last, lower, upper⟩ := hu
  obtain @⟨n, d, hn, first', last', lower', upper'⟩ := hv
  have enough := le_shiftLeft first (e - min e d).toNat
  have most := shiftLeft_lt (min e d) last (le_max_left e d)
  have most' := shiftLeft_lt (min e d) last' (le_max_right e d)
  have positive : 0 < m <<< (e - min e d).toNat + n <<< (d - min e d).toNat :=
    Nat.add_pos_left ((Nat.two_pow_pos _).trans_le enough) _
  have long : 52 + (e - min e d).toNat ≤
      (m <<< (e - min e d).toNat + n <<< (d - min e d).toNat).log2 :=
    (Nat.le_log2 positive.ne').mpr (enough.trans (Nat.le_add_right _ _))
  have short : (m <<< (e - min e d).toNat + n <<< (d - min e d).toNat).log2 <
      53 + (max e d - min e d).toNat + 1 := by
    rw [Nat.log2_lt positive.ne', Nat.pow_succ, Nat.mul_two]
    exact Nat.add_lt_add most most'
  have sum : UnpackedFloat.add .binary64 (.finite .positive m e hm) (.finite .positive n d hn) =
      UnpackedFloat.round .binary64 .positive _ (min e d) :=
    normalize_natCast .binary64 positive (min e d) .positive
  rw [sum]
  apply normal_round .positive positive <;> omega

/-- A difference is zero only if both values may be in the same binade. -/
theorem normal_sub (hu : Normal .positive low high u) (hv : Normal .positive low' high' v)
    (least : -1022 ≤ min low low') :
    UnpackedFloat.sub .binary64 u v = .zero .positive ∧ low' ≤ high ∨
      ∃ s, Normal s (min low low' - 52) (max high high' + 1)
        (UnpackedFloat.sub .binary64 u v) := by
  obtain @⟨m, e, hm, first, last, lower, upper⟩ := hu
  obtain @⟨n, d, hn, first', last', lower', upper'⟩ := hv
  have difference :
      UnpackedFloat.sub .binary64 (.finite .positive m e hm) (.finite .positive n d hn) =
        UnpackedFloat.normalize .binary64
          (((m <<< (e - min e d).toNat : Nat) : Int) - (n <<< (d - min e d).toNat : Nat))
          (min e d) .positive := rfl
  rw [difference]
  by_cases same :
      ((m <<< (e - min e d).toNat : Nat) : Int) - (n <<< (d - min e d).toNat : Nat) = 0
  · rw [same]
    refine .inl ⟨rfl, ?_⟩
    have below := shiftLeft_lt (min e d) last (le_refl e)
    have above := le_shiftLeft first' (d - min e d).toNat
    have order : 52 + (d - min e d).toNat < 53 + (e - min e d).toNat := by
      rw [← Nat.pow_lt_pow_iff_right Nat.one_lt_two]
      omega
    omega
  · have most := shiftLeft_lt (min e d) last (le_max_left e d)
    have most' := shiftLeft_lt (min e d) last' (le_max_right e d)
    generalize m <<< (e - min e d).toNat = a at same most ⊢
    generalize n <<< (d - min e d).toNat = b at same most' ⊢
    have short : ((a : Int) - b).natAbs.log2 < 53 + (max e d - min e d).toNat := by
      rw [Nat.log2_lt (by omega)]
      omega
    right
    apply normal_normalize same <;> omega

theorem normal_half (hu : Normal .positive low high u) (least : -1072 ≤ low)
    (positive : 0 < 2 ^ 52) :
    Normal .positive (low - 1) high
      (UnpackedFloat.div .binary64 u (.finite .positive (2 ^ 52) (-51) positive)) := by
  obtain @⟨m, e, hm, first, last, lower, upper⟩ := hu
  have log : m.log2 = 52 := (Nat.log2_eq_iff hm.ne').mpr ⟨first, last⟩
  have target : min (e - -51) (Format.targetExponent .binary64
      (totalExponent m e - totalExponent (2 ^ 52) (-51))) = e - 2 := by
    rw [targetExponent_binary64, totalExponent, totalExponent, Nat.log2_two_pow, log]
    omega
  have shift : (e - -51 - (e - 2)).toNat = 53 := by omega
  have quotient : m <<< 53 / 2 ^ 52 = 2 * m := by
    rw [Nat.shiftLeft_eq]
    omega
  have core : (divCore .binary64 m e (2 ^ 52) (-51)).1 = 2 * m ∧
      (divCore .binary64 m e (2 ^ 52) (-51)).2.1 = e - 2 := by
    unfold divCore
    dsimp only
    rw [target, shift, quotient]
    exact ⟨rfl, rfl⟩
  have double : (2 * m).log2 = 53 := (Nat.log2_eq_iff (by omega)).mpr (by omega)
  have half : UnpackedFloat.div .binary64 (.finite .positive m e hm)
      (.finite .positive (2 ^ 52) (-51) positive) =
        roundWithAccuracy .binary64 .positive (2 * m) (e - 2)
          (divCore .binary64 m e (2 ^ 52) (-51)).2.2 := by
    rw [← core.1, ← core.2]
    rfl
  rw [half]
  apply normal_roundWithAccuracy <;> omega

theorem normal_mul {s t : Sign} (hu : Normal s low high u) (hv : Normal t low' high' v)
    (least : -1125 ≤ low + low') :
    Normal (s * t) (low + low' + 52) (high + high' + 54) (UnpackedFloat.mul .binary64 u v) := by
  obtain @⟨m, e, hm, first, last, lower, upper⟩ := hu
  obtain @⟨n, d, hn, first', last', lower', upper'⟩ := hv
  have positive : m * n ≠ 0 := (Nat.mul_pos hm hn).ne'
  have long : 104 ≤ (m * n).log2 := by
    rw [Nat.le_log2 positive, Nat.pow_add 2 52 52]
    exact Nat.mul_le_mul first first'
  have short : (m * n).log2 < 106 := by
    rw [Nat.log2_lt positive, Nat.pow_add 2 53 53]
    exact Nat.mul_lt_mul'' last last'
  change Normal (s * t) _ _ (roundWithAccuracy .binary64 (s * t) (m * n) (e + d) .exact)
  apply normal_roundWithAccuracy <;> omega

end Operations

section Values

/-- Normal values come out of their bits as they went in. -/
theorem Normal.pack {s : Sign} {low high : Int} {u : UnpackedFloat} (normal : Normal s low high u)
    (least : -1074 ≤ low) (most : high ≤ 971) :
    Normal s low high (Float.ofModel (.pack u)).toModel.unpack := by
  change Normal s low high (unpack .binary64 (UnpackedFloat.pack .binary64 u))
  rwa [unpack_pack_of_normal normal least most]

theorem Normal.finite_nonzero {s : Sign} {low high : Int} {x : Float}
    (normal : Normal s low high x.toModel.unpack) :
    Scalar.isFinite x = true ∧ Scalar.eq x 0 = false := by
  rw [Bool.eq_false_iff, ne_eq, eq_zero_iff]
  change x.toModel.unpack.isFinite = true ∧ _
  generalize x.toModel.unpack = u at normal
  obtain ⟨⟩ := normal
  exact ⟨rfl, nofun⟩

/-- The exponent of an integer that is not too large. -/
theorem normal_ofInt {n : Nat} {k : Nat} (above : 2 ^ k ≤ n) (below : n < 2 ^ 64) :
    Normal .positive (k - 52) 12 (ofInt n).toModel.unpack := by
  have positive : 0 < n := (Nat.two_pow_pos k).trans_le above
  have long : k ≤ n.log2 := (Nat.le_log2 positive.ne').mpr above
  have short : n.log2 < 64 := (Nat.log2_lt positive.ne').mpr below
  have rounded : Normal .positive (k - 52) 12
      (UnpackedFloat.normalize .binary64 n 0 .positive) := by
    rw [normalize_natCast _ positive]
    apply normal_round .positive positive <;> omega
  exact rounded.pack (by omega) (by omega)

end Values

end TradeBars.Binary64
