import Mathlib
import TradeBars.Proofs.Scalar.Laws

/-! Binary64 keeps the laws of scalars. Its numbers are ordered by sign, exponent and
mantissa, with the two zeros in one place; only an infinity or not-a-number can turn a
sum into not-a-number; and adding zero rounds nothing. What is known of packed floats comes
with the library as a whole, and with no part of it. -/
namespace TradeBars.Binary64
open Float.Model UnpackedFloat

section NotANumber

theorem pack_ne_packedNaN {u : UnpackedFloat} (number : u ≠ .notANumber) :
    UnpackedFloat.pack .binary64 u ≠ packedNaN .binary64 := by
  cases u with
  | notANumber => contradiction
  | infinity s => cases s <;> decide
  | zero s => cases s <;> decide
  | finite s m e positive =>
    unfold UnpackedFloat.pack
    dsimp only
    split
    · cases s <;> decide
    · next small =>
      intro bits
      -- an exponent field of ones alone is left to infinities and not-a-number
      have ones := congrArg (fun b => (unpackExponent b).toNat) bits
      split at ones <;>
        simp only [packedNaN, unpackExponent_packComponents, BitVec.toNat_ofNat] at ones
      · have all : (-1#11).toNat = 2 ^ 11 - 1 := by decide
        rw [all, Nat.mod_eq_of_lt (by omega)] at ones
        omega
      · exact absurd ones (by decide)

theorem unpack_pack_ne_nan {u : UnpackedFloat} (number : u ≠ .notANumber) :
    (Float.Model.pack u).unpack ≠ .notANumber := by
  intro nan
  exact pack_ne_packedNaN number
    ((unpack_eq_notANumber_iff_of_valid valid_pack (by decide)).mp nan)

theorem normalize_ne_nan (spec : Format) (n e : Int) (s : Sign) :
    UnpackedFloat.normalize spec n e s ≠ .notANumber := by
  unfold UnpackedFloat.normalize UnpackedFloat.round roundWithAccuracy
  dsimp only
  split
  · split <;> nofun
  · nofun
  · split <;> nofun

theorem add_ne_nan {a b : UnpackedFloat} (ha : a ≠ .notANumber) (hb : b.isFinite = true) :
    UnpackedFloat.add .binary64 a b ≠ .notANumber := by
  cases b with
  | notANumber | infinity => contradiction
  | zero t =>
    cases a with
    | notANumber => contradiction
    | infinity | finite => nofun
    | zero s => cases s <;> cases t <;> nofun
  | finite t n e positive =>
    cases a with
    | notANumber => contradiction
    | infinity | zero => nofun
    | finite s m d _ => exact normalize_ne_nan _ _ _ _

end NotANumber

section Order

/-- The place of a number: its sign with infinities outermost, then its exponent and its
mantissa, both turned around for negative numbers. -/
def rank : UnpackedFloat → Int ×ₗ Int ×ₗ Int
  | .infinity .negative => toLex (-2, toLex (0, 0))
  | .finite .negative m e _ => toLex (-1, toLex (-e, -m))
  | .zero _ | .notANumber => toLex (0, toLex (0, 0))
  | .finite .positive m e _ => toLex (1, toLex (e, m))
  | .infinity .positive => toLex (2, toLex (0, 0))

theorem compare_neg (x y : Int) : compare (-x) (-y) = compare y x := by
  simp only [compare, compareOfLessAndEq]
  grind

theorem compare_cast (m n : Nat) : compare (m : Int) n = compare m n := by
  simp only [compare, compareOfLessAndEq]
  grind

theorem compare_eq_rank {a b : UnpackedFloat} (ha : a ≠ .notANumber) (hb : b ≠ .notANumber) :
    a.compare b = some (compare (rank a) (rank b)) := by
  rcases a with (_ | _) | _ | (_ | _) | ⟨_ | _, m, d, _⟩ <;>
    rcases b with (_ | _) | _ | (_ | _) | ⟨_ | _, n, e, _⟩ <;>
    first
    | contradiction
    | rfl
    | simp [UnpackedFloat.compare, rank, Prod.Lex.compare_def, compareLex, compareOn,
        compare_neg, compare_cast, Ordering.swap_then, Int.compare_swap, Nat.compare_swap]

section Numbers

variable {a b : UnpackedFloat} (ha : a ≠ .notANumber) (hb : b ≠ .notANumber)
include ha hb

theorem lt_iff_rank : a.lt b = true ↔ rank a < rank b := by
  rw [UnpackedFloat.lt, compare_eq_rank ha hb, beq_iff_eq, Option.some_inj, compare_lt_iff_lt]

theorem le_iff_rank : a.le b = true ↔ rank a ≤ rank b := by
  rw [UnpackedFloat.le, compare_eq_rank ha hb, Option.any_some, Ordering.isLE_iff_ne_gt]
  exact compare_le_iff_le

end Numbers

end Order

section Zero

theorem pack_unpack (m : Float.Model) : Float.Model.pack m.unpack = m := by
  obtain ⟨bits, valid⟩ := m
  have same := pack_unpack_of_valid valid (by decide)
  simp only [Float.Model.pack, Float.Model.unpack, same]

theorem eq_zero_iff (x : Float) :
    Scalar.eq x 0 = true ↔ ∃ s, x.toModel.unpack = .zero s := by
  change x.toModel.unpack.beq (.zero .positive) = true ↔ _
  cases x.toModel.unpack with
  | notANumber => simp [UnpackedFloat.beq, UnpackedFloat.compare]
  | infinity s => cases s <;> simp [UnpackedFloat.beq, UnpackedFloat.compare]
  | zero s => simp [UnpackedFloat.beq, UnpackedFloat.compare]
  | finite s m e _ => cases s <;> simp [UnpackedFloat.beq, UnpackedFloat.compare]

theorem zero_add_of_ne_zero (spec : Format) (s : Sign) {u : UnpackedFloat}
    (nonzero : ∀ t, u ≠ .zero t) : UnpackedFloat.add spec (.zero s) u = u := by
  cases u with
  | zero t => exact absurd rfl (nonzero t)
  | notANumber | infinity | finite => rfl

/-- A zero leaves what is added to it as it is, but for the sign of another zero. -/
theorem zero_add_cases {x : Float} {s : Sign} (zero : x.toModel.unpack = .zero s) (y : Float) :
    Scalar.Same (x + y) y := by
  have sum : x + y = ⟨.pack (.add .binary64 (.zero s) y.toModel.unpack)⟩ := zero ▸ rfl
  by_cases other : ∃ t, y.toModel.unpack = .zero t
  · right
    obtain ⟨t, zero⟩ := other
    rw [eq_zero_iff, eq_zero_iff, sum, zero]
    refine ⟨?_, t, rfl⟩
    cases s <;> cases t <;> exact ⟨_, unpack_packedZero⟩
  · left
    rw [sum, zero_add_of_ne_zero _ _ (not_exists.mp other), pack_unpack]

end Zero

theorem isNaN_iff_unpack (x : Float) :
    Scalar.isNaN x = false ↔ x.toModel.unpack ≠ .notANumber := by
  change x.toModel.unpack.isNaN = false ↔ _
  rw [ne_eq, ← UnpackedFloat.isNaN_iff, Bool.not_eq_true]

theorem isNaN_of_isFinite {x : Float} (finite : Scalar.isFinite x = true) :
    Scalar.isNaN x = false := by
  rw [isNaN_iff_unpack]
  intro nan
  have finite : x.toModel.unpack.isFinite = true := finite
  rw [nan] at finite
  contradiction

theorem ne_nan_of_lt {a b : UnpackedFloat} (less : a.lt b = true) :
    a ≠ .notANumber ∧ b ≠ .notANumber := by
  constructor
  · rintro rfl
    contradiction
  · rintro rfl
    cases a <;> contradiction

theorem lt_eq_unpack (x y : Float) : Scalar.lt x y = x.toModel.unpack.lt y.toModel.unpack := by
  change decide (decide (x.toModel.unpack.lt y.toModel.unpack = true) = true) = _
  rw [Bool.decide_eq_true, Bool.decide_eq_true]

theorem le_eq_unpack (x y : Float) : Scalar.le x y = x.toModel.unpack.le y.toModel.unpack := by
  change decide (decide (x.toModel.unpack.le y.toModel.unpack = true) = true) = _
  rw [Bool.decide_eq_true, Bool.decide_eq_true]

theorem unpack_of_isNaN {x : Float} (nan : Scalar.isNaN x = true) :
    x.toModel.unpack = .notANumber := UnpackedFloat.isNaN_iff.mp nan

/-! Not-a-number stays in every result that it goes into. -/

theorem isNaN_of_left {x : Float} (operation : UnpackedFloat → UnpackedFloat → UnpackedFloat)
    (keeps : ∀ b, operation .notANumber b = .notANumber) (nan : Scalar.isNaN x = true)
    (y : Float) :
    Scalar.isNaN (Float.ofModel (.pack (operation x.toModel.unpack y.toModel.unpack))) = true := by
  rw [unpack_of_isNaN nan, keeps]
  rfl

theorem isNaN_of_right (operation : UnpackedFloat → UnpackedFloat → UnpackedFloat)
    (keeps : ∀ a, operation a .notANumber = .notANumber) (x : Float) {y : Float}
    (nan : Scalar.isNaN y = true) :
    Scalar.isNaN (Float.ofModel (.pack (operation x.toModel.unpack y.toModel.unpack))) = true := by
  rw [unpack_of_isNaN nan, keeps]
  rfl

theorem isNaN_add_right (x : Float) {y : Float} (nan : Scalar.isNaN y = true) :
    Scalar.isNaN (x + y) = true :=
  isNaN_of_right (.add .binary64) (fun a => by cases a <;> rfl) x nan

/-- Not-a-number is below nothing. -/
theorem lt_of_isNaN {x : Float} (nan : Scalar.isNaN x = true) (y : Float) :
    Scalar.lt x y = false := by
  rw [lt_eq_unpack, unpack_of_isNaN nan]
  rfl

instance : LawfulScalar Float where
  isNaN_zero := by decide
  isNaN_ofInt n := by
    rw [isNaN_iff_unpack]
    exact unpack_pack_ne_nan (normalize_ne_nan _ _ _ _)
  isNaN_add := by
    intro a b number finite
    rw [isNaN_iff_unpack] at number ⊢
    exact unpack_pack_ne_nan (add_ne_nan number finite)
  lt_asymm := by
    intro a b less
    rw [lt_eq_unpack] at less ⊢
    obtain ⟨ha, hb⟩ := ne_nan_of_lt less
    rw [lt_iff_rank ha hb] at less
    rw [Bool.eq_false_iff, ne_eq, lt_iff_rank hb ha]
    exact less.not_gt
  lt_or_lt := by
    intro a b c number less
    rw [lt_eq_unpack] at less
    rw [lt_eq_unpack, lt_eq_unpack]
    rw [isNaN_iff_unpack] at number
    obtain ⟨ha, hb⟩ := ne_nan_of_lt less
    rw [lt_iff_rank ha hb] at less
    rw [lt_iff_rank ha number, lt_iff_rank number hb]
    exact (lt_or_ge _ _).imp_right fun le => le.trans_lt less
  le_eq := by
    intro a b ha hb
    rw [isNaN_iff_unpack] at ha hb
    rw [le_eq_unpack, lt_eq_unpack, Bool.eq_iff_iff, Bool.not_eq_true', ← Bool.not_eq_true,
      le_iff_rank ha hb, lt_iff_rank hb ha, not_lt]
  zero_add_same := fun {a} _ => zero_add_cases (s := .positive) rfl a
  add_same := by
    intro a b c same
    cases same with
    | inl equal => exact .inl (congrArg (· + c) equal)
    | inr zeros =>
      obtain ⟨s, za⟩ := (eq_zero_iff a).mp zeros.1
      obtain ⟨t, zb⟩ := (eq_zero_iff b).mp zeros.2
      exact (zero_add_cases za c).trans (zero_add_cases zb c).symm

end TradeBars.Binary64
