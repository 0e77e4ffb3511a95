import TradeBars.Candle.Resample
import Mathlib.Algebra.Order.Ring.Int
import Mathlib.Data.List.TakeWhile

/-! Which bucket of a grid holds a second, and the grids that cover a stretch of time. A
grid with a multiple of the step that covers the starts of the finer buckets is the one
that covers the stretch itself. Cutting candles in the order of time puts each of them into
its bucket. -/
namespace TradeBars.Candle

section Midnight

theorem midnight_le (second : Int) : midnight second ≤ second := by
  unfold midnight
  omega

/-- Whatever lies between a second and the midnight before it is of the same day. -/
theorem midnight_eq {second other : Int} (after : midnight second ≤ other)
    (before : other ≤ second) : midnight other = midnight second := by
  unfold midnight at *
  omega

end Midnight

namespace Grid

section Buckets

variable {g : Grid} (positive : 0 < g.step)
include positive

theorem bucket_eq_iff (second number : Int) : g.bucket second = number ↔
    g.origin + number * g.step ≤ second ∧ second < g.origin + (number + 1) * g.step := by
  rw [bucket, Int.ediv_eq_iff_of_pos positive, Int.add_mul, Int.one_mul]
  omega

theorem bucket_le {a b : Int} (before : a ≤ b) : g.bucket a ≤ g.bucket b :=
  Int.ediv_le_ediv positive (by omega)

theorem start_le_iff {i j : Nat} : g.start i ≤ g.start j ↔ i ≤ j := by
  unfold start
  rw [Int.add_le_add_iff_left, Int.mul_le_mul_iff_of_pos_right positive]
  omega

end Buckets

section Covering

variable (step first last : Int)

@[simp] theorem covering_origin : (covering step first last).origin = midnight first := rfl

@[simp] theorem covering_step : (covering step first last).step = step := rfl

theorem bucket_first :
    (covering step first last).bucket first = (covering step first last).firstBucket := rfl

theorem count_covering : (covering step first last).count =
    ((covering step first last).bucket last - (covering step first last).bucket first + 1).toNat :=
  rfl

variable {step first last}

theorem covering_congr {a b : Int} (day : midnight a = midnight first)
    (front : (covering step first last).bucket a = (covering step first last).bucket first)
    (back : (covering step first last).bucket b = (covering step first last).bucket last) :
    covering step a b = covering step first last := by
  simp only [bucket, covering_origin, covering_step] at front back
  simp only [covering, day, front, back]

variable (positive : 0 < step)
include positive

theorem firstBucket_nonneg : 0 ≤ (covering step first last).firstBucket := by
  have := midnight_le first
  exact Int.ediv_nonneg (by omega) positive.le

theorem start_zero_bounds : midnight first ≤ (covering step first last).start 0 ∧
    (covering step first last).start 0 ≤ first := by
  have nonneg : 0 ≤ (covering step first last).firstBucket := firstBucket_nonneg positive
  have inside := (bucket_eq_iff (g := covering step first last) positive first _).mp rfl
  rw [bucket_first] at inside
  rw [start, Nat.cast_zero, Int.add_zero]
  exact ⟨Int.le_add_of_nonneg_right (Int.mul_nonneg nonneg positive.le), inside.1⟩

theorem count_eq (order : first ≤ last) : ((covering step first last).count : Int) =
    (covering step first last).bucket last - (covering step first last).firstBucket + 1 := by
  have bounds := bucket_le (g := covering step first last) positive order
  rw [count_covering, ← bucket_first]
  omega

theorem count_pos (order : first ≤ last) : 0 < (covering step first last).count := by
  have count := count_eq positive order
  have forward : (covering step first last).firstBucket ≤
    (covering step first last).bucket last := bucket_le positive order
  omega

theorem start_bounds (order : first ≤ last) {i : Nat} (inside : i < (covering step first last).count) :
    midnight first ≤ (covering step first last).start i ∧
      (covering step first last).start i ≤ last := by
  have front : midnight first ≤ (covering step first last).start i :=
    (start_zero_bounds positive).1.trans ((start_le_iff positive).mpr (Nat.zero_le i))
  have count := count_eq positive order
  have back := (bucket_eq_iff (g := covering step first last) positive last _).mp rfl
  refine ⟨front, le_trans ?_ back.1⟩
  rw [start, Int.add_le_add_iff_left]
  exact Int.mul_le_mul_of_nonneg_right (by omega) positive.le

/-- Seconds of the stretch lie in buckets of the grid, here counted from its first one. -/
theorem exists_index {second : Int} (after : first ≤ second) (before : second ≤ last) :
    ∃ i < (covering step first last).count,
      (covering step first last).bucket second = (covering step first last).firstBucket + i := by
  have low := bucket_le (g := covering step first last) positive after
  have high := bucket_le (g := covering step first last) positive before
  have count := count_eq positive (after.trans before)
  rw [bucket_first] at low
  refine ⟨((covering step first last).bucket second -
    (covering step first last).firstBucket).toNat, ?_, ?_⟩ <;> omega

end Covering

section Coarser

variable {fine coarse first last : Int} (positive : 0 < fine) (divides : fine ∣ coarse)
include positive divides

/-- A fine bucket lies in one coarse bucket, whatever second stands for it. -/
theorem bucket_start {i : Nat} {second : Int}
    (inside : (covering fine first last).bucket second = (covering fine first last).firstBucket + i) :
    (covering coarse first last).bucket ((covering fine first last).start i) =
      (covering coarse first last).bucket second := by
  obtain ⟨k, rfl⟩ := divides
  rw [bucket, covering_origin, covering_step] at inside
  calc (covering (fine * k) first last).bucket ((covering fine first last).start i)
    _ = ((covering fine first last).firstBucket + i) * fine / (fine * k) := by
      rw [bucket, start, covering_origin, covering_origin, covering_step, covering_step,
        add_sub_cancel_left]
    _ = ((covering fine first last).firstBucket + i) / k := by
      rw [Int.mul_comm, Int.mul_ediv_mul_of_pos _ _ positive]
    _ = (second - midnight first) / (fine * k) := by
      rw [← inside, Int.ediv_ediv_of_nonneg positive.le]
    _ = (covering (fine * k) first last).bucket second := rfl

/-- The coarse grid is the same over a stretch and over the starts of its fine buckets. -/
theorem covering_starts (order : first ≤ last) :
    covering coarse ((covering fine first last).start 0)
      ((covering fine first last).start ((covering fine first last).count - 1)) =
      covering coarse first last := by
  obtain ⟨after, before⟩ :
      midnight first ≤ (covering fine first last).start 0 ∧
        (covering fine first last).start 0 ≤ first := start_zero_bounds positive
  have count := count_eq positive order
  have low := bucket_le (g := covering fine first last) positive order
  rw [bucket_first] at low
  apply covering_congr (midnight_eq after before)
  · apply bucket_start positive divides
    rw [bucket_first, Nat.cast_zero, Int.add_zero]
  · apply bucket_start positive divides
    omega

end Coarser

section Cut

variable {α : Type} (g : Grid)

/-- The candles of a bucket, which counts from the first one. -/
def part (i : Nat) (cs : List (Candle α)) : List (Candle α) :=
  cs.filter fun c => g.bucket c.openTime.seconds == g.firstBucket + i

/-- All candles lie in the buckets of the grid. -/
structure Covers (cs : List (Candle α)) : Prop where
  low : ∀ c ∈ cs, g.firstBucket ≤ g.bucket c.openTime.seconds
  high : ∀ c ∈ cs, g.bucket c.openTime.seconds < g.firstBucket + g.count

/-- The buckets of candles never go back. -/
def Monotone (cs : List (Candle α)) : Prop :=
  cs.Pairwise fun a b => g.bucket a.openTime.seconds ≤ g.bucket b.openTime.seconds

variable {g}

theorem takeWhile_bucket {number : Int} {cs : List (Candle α)} (mono : g.Monotone cs)
    (low : ∀ c ∈ cs, number ≤ g.bucket c.openTime.seconds) :
    cs.takeWhile (fun c => g.bucket c.openTime.seconds == number) =
      cs.filter (fun c => g.bucket c.openTime.seconds == number) := by
  induction cs with
  | nil => rfl
  | cons c cs ih =>
    obtain ⟨above, mono⟩ := List.pairwise_cons.mp mono
    by_cases inside : g.bucket c.openTime.seconds = number
    · rw [List.takeWhile_cons_of_pos (by simpa using inside),
        List.filter_cons_of_pos (by simpa using inside),
        ih mono fun c member => low c (List.mem_cons_of_mem _ member)]
    · have outside : ∀ d ∈ c :: cs, g.bucket d.openTime.seconds ≠ number := by
        have := low c List.mem_cons_self
        intro d member
        cases member with
        | head => exact inside
        | tail _ member =>
          have := above d member
          omega
      rw [List.takeWhile_cons_of_neg (by simpa using inside), List.filter_eq_nil_iff.mpr]
      simpa using outside

theorem dropWhile_bucket {number : Int} {cs : List (Candle α)} (mono : g.Monotone cs)
    (low : ∀ c ∈ cs, number ≤ g.bucket c.openTime.seconds) :
    ∀ c ∈ cs.dropWhile (fun c => g.bucket c.openTime.seconds == number),
      number + 1 ≤ g.bucket c.openTime.seconds := by
  induction cs with
  | nil => simp
  | cons c cs ih =>
    obtain ⟨above, mono⟩ := List.pairwise_cons.mp mono
    by_cases inside : g.bucket c.openTime.seconds = number
    · rw [List.dropWhile_cons_of_pos (by simpa using inside)]
      exact ih mono fun c member => low c (List.mem_cons_of_mem _ member)
    · rw [List.dropWhile_cons_of_neg (by simpa using inside)]
      have := low c List.mem_cons_self
      intro d member
      cases member with
      | head => omega
      | tail _ member =>
        have := above d member
        omega

theorem filter_dropWhile_bucket {number other : Int} (different : other ≠ number)
    (cs : List (Candle α)) :
    (cs.dropWhile fun c => g.bucket c.openTime.seconds == number).filter
        (fun c => g.bucket c.openTime.seconds == other) =
      cs.filter fun c => g.bucket c.openTime.seconds == other := by
  have noneTaken : (cs.takeWhile fun c => g.bucket c.openTime.seconds == number).filter
      (fun c => g.bucket c.openTime.seconds == other) = [] := by
    rw [List.filter_eq_nil_iff]
    intro c member
    have inside := List.mem_takeWhile_imp member
    simp only [beq_iff_eq] at inside ⊢
    omega
  conv_rhs => rw [← List.takeWhile_append_dropWhile
    (p := fun c => g.bucket c.openTime.seconds == number) (l := cs), List.filter_append, noneTaken]
  rfl

/-- Cutting a list without a step back gives each bucket all that lies in it. -/
theorem cut_eq {number : Int} {cs : List (Candle α)} (mono : g.Monotone cs)
    (low : ∀ c ∈ cs, number ≤ g.bucket c.openTime.seconds) (count : Nat) :
    g.cut number count cs = (List.range count).map fun i : Nat =>
      cs.filter fun c => g.bucket c.openTime.seconds == number + i := by
  induction count generalizing number cs with
  | zero => rfl
  | succ count ih =>
    have rest := ih (mono.sublist (List.dropWhile_sublist _)) (dropWhile_bucket mono low)
    rw [cut, rest, List.range_succ_eq_map, List.map_cons, List.map_map, takeWhile_bucket mono low]
    congr 1
    · simp
    · apply List.map_congr_left
      intro i _
      have next : number + 1 + (i : Int) = number + ((i + 1 : Nat) : Int) := by omega
      rw [next, filter_dropWhile_bucket (by omega)]
      rfl

theorem flatten_cut {number : Int} {cs : List (Candle α)} (mono : g.Monotone cs)
    (low : ∀ c ∈ cs, number ≤ g.bucket c.openTime.seconds) {count : Nat}
    (high : ∀ c ∈ cs, g.bucket c.openTime.seconds < number + count) :
    (g.cut number count cs).flatten = cs := by
  induction count generalizing number cs with
  | zero =>
    cases cs with
    | nil => rfl
    | cons c cs =>
      have := low c List.mem_cons_self
      have := high c List.mem_cons_self
      omega
  | succ count ih =>
    rw [cut, List.flatten_cons, ih (mono.sublist (List.dropWhile_sublist _))
      (dropWhile_bucket mono low), List.takeWhile_append_dropWhile]
    intro c member
    have := high c ((List.dropWhile_sublist _).subset member)
    omega

/-- The parts that the buckets have make up the whole. -/
theorem flatten_parts {cs : List (Candle α)} (mono : g.Monotone cs) (covers : g.Covers cs) :
    ((List.range g.count).map (g.part · cs)).flatten = cs :=
  (congrArg List.flatten (cut_eq mono covers.low _)).symm.trans
    (flatten_cut mono covers.low covers.high)

end Cut

end Grid

end TradeBars.Candle
