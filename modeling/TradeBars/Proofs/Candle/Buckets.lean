import TradeBars.Proofs.Candle.Column
import TradeBars.Proofs.Candle.Resample
import TradeBars.Proofs.Scalar.Binary64
import Mathlib.Data.Int.ModEq
import Mathlib.Order.Bounds.Defs

/-! What the buckets of a resample are and what each of them holds. -/
namespace TradeBars.Candle
open Scalar (Recorded present_eq_some_iff present_eq_none_iff)

/-- The buckets of `step` seconds from `start` on. -/
def inBucket (start step : Int) (i : Nat) (second : Int) : Bool :=
  start + i * step ≤ second && second < start + (i + 1) * step

namespace Grid

theorem start_eq (g : Grid) (i : Nat) : g.start i = g.start 0 + i * g.step := by
  simp only [start, Int.add_mul, Nat.cast_zero, Int.zero_mul]
  omega

theorem inBucket_start {g : Grid} (positive : 0 < g.step) (i : Nat) (second : Int) :
    inBucket (g.start 0) g.step i second = (g.bucket second == g.firstBucket + i) := by
  rw [Bool.eq_iff_iff, beq_iff_eq, bucket_eq_iff positive, inBucket, Bool.and_eq_true,
    decide_eq_true_eq, decide_eq_true_eq, start]
  simp only [Int.add_mul, Nat.cast_zero, Int.zero_mul]
  omega

/-- The first bucket starts as late as it can on a grid through midnight. -/
theorem isGreatest_start {step : Int} (positive : 0 < step) (first last : Int) :
    IsGreatest {t | t ≤ first ∧ t ≡ midnight first [ZMOD step]}
      ((covering step first last).start 0) := by
  constructor
  · refine ⟨(start_zero_bounds positive).2, Int.modEq_iff_dvd.mpr ?_⟩
    exact ⟨-(covering step first last).firstBucket, by
      rw [start, covering_origin, covering_step]; ring⟩
  · -- a later one would be a whole number of steps after the midnight, and so in its bucket
    rintro t ⟨before, aligned⟩
    obtain ⟨k, apart⟩ := Int.modEq_iff_dvd.mp aligned
    have bound : -k ≤ (covering step first last).firstBucket := by
      apply Int.le_ediv_of_mul_le positive
      rw [Int.neg_mul, Int.mul_comm]
      omega
    have scaled := Int.mul_le_mul_of_nonneg_right bound positive.le
    rw [start, covering_origin, covering_step, Nat.cast_zero, Int.add_zero]
    rw [Int.neg_mul, Int.mul_comm k] at scaled
    omega

end Grid

section Summarizes

variable {α : Type} [Scalar α]

/-- The values that candles have in a column, in the order of the candles. -/
inductive Values (get : Candle α → Option α) : List (Candle α) → List α → Prop where
  | nil : Values get [] []
  | recorded {c : Candle α} {cs : List (Candle α)} {v : α} {vs : List α} :
      Recorded (get c) v → Values get cs vs → Values get (c :: cs) (v :: vs)
  | missing {c : Candle α} {cs : List (Candle α)} {vs : List α} :
      (∀ v, ¬ Recorded (get c) v) → Values get cs vs → Values get (c :: cs) vs

/-- A candle with the values of several others, each column for itself. -/
structure Summarizes (bar : Candle α) (cs : List (Candle α)) : Prop where
  openPrice : ∃ vs, Values (·.openPrice) cs vs ∧ bar.openPrice = vs.head?
  close : ∃ vs, Values (·.close) cs vs ∧ bar.close = vs.getLast?
  high {m : α} : bar.high = some m →
    (∃ c ∈ cs, Recorded c.high m) ∧ ∀ c ∈ cs, ∀ x, Recorded c.high x → Scalar.le x m = true
  low {m : α} : bar.low = some m →
    (∃ c ∈ cs, Recorded c.low m) ∧ ∀ c ∈ cs, ∀ x, Recorded c.low x → Scalar.le m x = true
  volume : ∃ vs, Values (·.volume) cs vs ∧ ∀ v, bar.volume = some v → v = vs.foldl (· + ·) 0
  openPrice_none : bar.openPrice = none ↔ ∀ c ∈ cs, ∀ v, ¬ Recorded c.openPrice v
  high_none : bar.high = none ↔ ∀ c ∈ cs, ∀ v, ¬ Recorded c.high v
  low_none : bar.low = none ↔ ∀ c ∈ cs, ∀ v, ¬ Recorded c.low v
  close_none : bar.close = none ↔ ∀ c ∈ cs, ∀ v, ¬ Recorded c.close v
  volume_none : bar.volume = none ↔ ∀ c ∈ cs, ∀ v, ¬ Recorded c.volume v

variable {get : Candle α → Option α} {cs : List (Candle α)}

theorem mem_column {v : α} : v ∈ column get cs ↔ ∃ c ∈ cs, Recorded (get c) v := by
  simp only [column, List.mem_filterMap, present_eq_some_iff]

theorem column_eq_nil : column get cs = [] ↔ ∀ c ∈ cs, ∀ v, ¬ Recorded (get c) v := by
  simp only [column, List.filterMap_eq_nil_iff, present_eq_none_iff]

theorem values_column (get : Candle α → Option α) (cs : List (Candle α)) :
    Values get cs (column get cs) := by
  induction cs with
  | nil => exact .nil
  | cons c cs ih =>
    rw [column, List.filterMap_cons]
    cases found : Scalar.present (get c) with
    | none => exact .missing (present_eq_none_iff.mp found) ih
    | some v => exact .recorded (present_eq_some_iff.mp found) ih

theorem Columns.summarizes [LawfulScalar α] {bar : Candle α} (columns : Columns bar cs) :
    Summarizes bar cs where
  openPrice := ⟨_, values_column _ cs, columns.openPrice⟩
  close := ⟨_, values_column _ cs, columns.close⟩
  high := by
    intro m found
    obtain ⟨member, above⟩ := greatest_of_foldFirst? (fun _ => isNaN_of_mem_column)
      (columns.high.symm.trans found)
    refine ⟨mem_column.mp member, fun c inside x recorded => ?_⟩
    have other := mem_column.mpr ⟨c, inside, recorded⟩
    exact (Scalar.le_iff (isNaN_of_mem_column other) (isNaN_of_mem_column member)).mpr
      (above x other)
  low := by
    intro m found
    obtain ⟨member, below⟩ := least_of_foldFirst? (fun _ => isNaN_of_mem_column)
      (columns.low.symm.trans found)
    refine ⟨mem_column.mp member, fun c inside x recorded => ?_⟩
    have other := mem_column.mpr ⟨c, inside, recorded⟩
    exact (Scalar.le_iff (isNaN_of_mem_column member) (isNaN_of_mem_column other)).mpr
      (below x other)
  volume := by
    refine ⟨_, values_column _ cs, fun v found => ?_⟩
    rw [columns.volume] at found
    exact (Option.some.inj (Option.ite_none_left_eq_some.mp found).2).symm
  openPrice_none := by
    rw [columns.openPrice, List.head?_eq_none_iff, column_eq_nil]
  high_none := by
    rw [columns.high, foldFirst?_eq_none, column_eq_nil]
  low_none := by
    rw [columns.low, foldFirst?_eq_none, column_eq_nil]
  close_none := by
    rw [columns.close, List.getLast?_eq_none_iff, column_eq_nil]
  volume_none := by
    rw [← column_eq_nil, columns.volume]
    cases column (·.volume) cs with
    | nil => simp
    | cons v vs => simp

end Summarizes

end TradeBars.Candle
