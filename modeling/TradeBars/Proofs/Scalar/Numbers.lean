import TradeBars.Proofs.Scalar.Signs

/-! Where not-a-number comes from. It stays in every result that it goes into. It does not come out
of finite operands, unless zero is divided by zero, so that it takes an overflow to make it of
numbers. -/
namespace TradeBars.Binary64
open Float.Model UnpackedFloat

section Operations

variable {spec : Format} {a b : UnpackedFloat}

theorem roundWithAccuracy_ne_nan (spec : Format) (s : Sign) (m : Nat) (e : Int)
    (accuracy : Accuracy) : roundWithAccuracy spec s m e accuracy ≠ .notANumber := by
  unfold roundWithAccuracy
  dsimp only
  split <;> nofun

/-- Only infinities of different signs add up to not-a-number. -/
theorem add_ne_nan_of_left (ha : a.isFinite = true) (hb : b ≠ .notANumber) :
    UnpackedFloat.add spec a b ≠ .notANumber := by
  cases a with
  | notANumber | infinity => contradiction
  | zero s =>
    cases b with
    | notANumber => contradiction
    | infinity | finite => nofun
    | zero t => cases s <;> cases t <;> nofun
  | finite s m e positive =>
    cases b with
    | notANumber => contradiction
    | infinity | zero => nofun
    | finite => exact normalize_ne_nan _ _ _ _

theorem sub_ne_nan (ha : a.isFinite = true) (hb : b.isFinite = true) :
    UnpackedFloat.sub spec a b ≠ .notANumber := by
  cases a with
  | notANumber | infinity => contradiction
  | zero s =>
    cases b with
    | notANumber | infinity => contradiction
    | finite => nofun
    | zero t => cases s <;> cases t <;> nofun
  | finite s m e positive =>
    cases b with
    | notANumber | infinity => contradiction
    | zero => nofun
    | finite => exact normalize_ne_nan _ _ _ _

/-- Only zero times infinity is not a number. -/
theorem mul_ne_nan (ha : a ≠ .notANumber) (hb : b.isFinite = true)
    (defined : a.isFinite = true ∨ ∀ s, b ≠ .zero s) :
    UnpackedFloat.mul spec a b ≠ .notANumber := by
  cases b with
  | notANumber | infinity => contradiction
  | zero t =>
    cases a with
    | notANumber => contradiction
    | infinity => exact absurd rfl (defined.resolve_left nofun t)
    | zero | finite => nofun
  | finite t n d _ =>
    cases a with
    | notANumber => contradiction
    | infinity | zero => nofun
    | finite => exact roundWithAccuracy_ne_nan _ _ _ _ _

/-- Only the quotients of two zeros and of two infinities are not numbers. -/
theorem div_ne_nan (ha : a ≠ .notANumber) (hb : b ≠ .notANumber) (nonzero : ∀ s, b ≠ .zero s)
    (defined : a.isFinite = true ∨ b.isFinite = true) :
    UnpackedFloat.div spec a b ≠ .notANumber := by
  cases b with
  | notANumber => contradiction
  | zero t => exact absurd rfl (nonzero t)
  | infinity t =>
    cases a with
    | notANumber => contradiction
    | infinity => simp [UnpackedFloat.isFinite] at defined
    | zero | finite => nofun
  | finite t n d _ =>
    cases a with
    | notANumber => contradiction
    | infinity | zero => nofun
    | finite => exact roundWithAccuracy_ne_nan _ _ _ _ _

end Operations

section NotANumber

variable {x y : Float}

theorem isNaN_add_left (nan : Scalar.isNaN x = true) (y : Float) : Scalar.isNaN (x + y) = true :=
  isNaN_of_left (.add .binary64) (fun b => by cases b <;> rfl) nan y

theorem isNaN_sub_left (nan : Scalar.isNaN x = true) (y : Float) : Scalar.isNaN (x - y) = true :=
  isNaN_of_left (.sub .binary64) (fun b => by cases b <;> rfl) nan y

theorem isNaN_sub_right (x : Float) (nan : Scalar.isNaN y = true) : Scalar.isNaN (x - y) = true :=
  isNaN_of_right (.sub .binary64) (fun a => by cases a <;> rfl) x nan

theorem isNaN_mul_left (nan : Scalar.isNaN x = true) (y : Float) : Scalar.isNaN (x * y) = true :=
  isNaN_of_left (.mul .binary64) (fun b => by cases b <;> rfl) nan y

theorem isNaN_mul_right (x : Float) (nan : Scalar.isNaN y = true) : Scalar.isNaN (x * y) = true :=
  isNaN_of_right (.mul .binary64) (fun a => by cases a <;> rfl) x nan

theorem isNaN_div_left (nan : Scalar.isNaN x = true) (y : Float) : Scalar.isNaN (x / y) = true :=
  isNaN_of_left (.div .binary64) (fun b => by cases b <;> rfl) nan y

theorem isNaN_sum_of_mem {xs : List Float} (member : x ∈ xs) (nan : Scalar.isNaN x = true) :
    Scalar.isNaN (Scalar.sum xs) = true := by
  induction xs using List.reverseRecOn with
  | nil => contradiction
  | append_singleton xs y ih =>
    rw [Scalar.sum_concat]
    cases List.mem_append.mp member with
    | inl front => exact isNaN_add_left (ih front) y
    | inr last => exact isNaN_add_right _ (List.mem_singleton.mp last ▸ nan)

end NotANumber

section Numbers

variable {x y : Float}

theorem isFinite_of_number (number : Scalar.isNaN x = false) (bounded : x.isInf = false) :
    Scalar.isFinite x = true := by
  change x.toModel.unpack.isNaN = false at number
  change x.toModel.unpack.isInf = false at bounded
  change x.toModel.unpack.isFinite = true
  cases unpacked : x.toModel.unpack with
  | notANumber => rw [unpacked] at number; contradiction
  | infinity => rw [unpacked] at bounded; contradiction
  | zero | finite => rfl

theorem not_zero_of_nonzero (nonzero : Scalar.eq x 0 = false) (s : Sign) :
    x.toModel.unpack ≠ .zero s := by
  rw [Bool.eq_false_iff, ne_eq, eq_zero_iff, not_exists] at nonzero
  exact nonzero s

theorem isNaN_add (fx : Scalar.isFinite x = true) (number : Scalar.isNaN y = false) :
    Scalar.isNaN (x + y) = false := by
  rw [isNaN_iff_unpack] at number ⊢
  exact unpack_pack_ne_nan (add_ne_nan_of_left fx number)

theorem isNaN_sub (fx : Scalar.isFinite x = true) (fy : Scalar.isFinite y = true) :
    Scalar.isNaN (x - y) = false := by
  rw [isNaN_iff_unpack]
  exact unpack_pack_ne_nan (sub_ne_nan fx fy)

theorem isNaN_mul (fx : Scalar.isFinite x = true) (fy : Scalar.isFinite y = true) :
    Scalar.isNaN (x * y) = false := by
  have number := (isNaN_iff_unpack x).mp (isNaN_of_isFinite fx)
  rw [isNaN_iff_unpack]
  exact unpack_pack_ne_nan (mul_ne_nan number fy (.inl fx))

/-- Such a factor changes nothing about what is a number. -/
theorem isNaN_mul_of_nonzero (x : Float) (fy : Scalar.isFinite y = true)
    (nonzero : Scalar.eq y 0 = false) : Scalar.isNaN (x * y) = Scalar.isNaN x := by
  cases nan : Scalar.isNaN x with
  | true => exact isNaN_mul_left nan y
  | false =>
    rw [isNaN_iff_unpack] at nan ⊢
    exact unpack_pack_ne_nan (mul_ne_nan nan fy (.inr (not_zero_of_nonzero nonzero)))

theorem isNaN_div (nx : Scalar.isNaN x = false) (ny : Scalar.isNaN y = false)
    (nonzero : Scalar.eq y 0 = false)
    (defined : Scalar.isFinite x = true ∨ Scalar.isFinite y = true) :
    Scalar.isNaN (x / y) = false := by
  rw [isNaN_iff_unpack] at nx ny ⊢
  exact unpack_pack_ne_nan (div_ne_nan nx ny (not_zero_of_nonzero nonzero) defined)

theorem isNaN_of_nonneg (nonneg : Scalar.le 0 x = true) : Scalar.isNaN x = false := by
  rw [isNaN_iff_unpack]
  intro nan
  rw [le_eq_unpack, nan] at nonneg
  contradiction

theorem mul_self_nonneg (finite : Scalar.isFinite x = true) : Scalar.le 0 (x * x) = true := by
  have product : (x * x).toModel.unpack = unpack .binary64 (UnpackedFloat.pack .binary64
    (UnpackedFloat.mul .binary64 x.toModel.unpack x.toModel.unpack)) := rfl
  have finite : x.toModel.unpack.isFinite = true := finite
  rw [le_zero_iff, product, sign?_unpack_pack]
  left
  cases unpacked : x.toModel.unpack with
  | notANumber | infinity => rw [unpacked] at finite; contradiction
  | zero s => cases s <;> rfl
  | finite s m e positive =>
    have sign : s * s = .positive := by cases s <;> rfl
    change sign? (roundWithAccuracy .binary64 (s * s) (m * m) (e + e) .exact) = some .positive
    rw [sign?_roundWithAccuracy, sign]

/-- A sum of numbers is finite, unless it overflows on the way. -/
theorem isFinite_sum {xs : List Float} (numbers : ∀ x ∈ xs, Scalar.isNaN x = false)
    (bounded : ∀ front ∈ xs.inits, (Scalar.sum front).isInf = false) :
    Scalar.isFinite (Scalar.sum xs) = true := by
  simp only [List.mem_inits] at bounded
  induction xs using List.reverseRecOn with
  | nil => rfl
  | append_singleton xs x ih =>
    rw [List.forall_mem_append, List.forall_mem_singleton] at numbers
    have front := ih numbers.1 fun ys begins => bounded ys (begins.trans (List.prefix_append _ _))
    have last := bounded _ List.prefix_rfl
    rw [Scalar.sum_concat] at last ⊢
    exact isFinite_of_number (isNaN_add front numbers.2) last

end Numbers

end TradeBars.Binary64
