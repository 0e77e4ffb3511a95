import TradeBars.Proofs.Scalar.Binary64
import TradeBars.Proofs.Scalar.Exact
import TradeBars.Proofs.Candle.Column
import TradeBars.Proofs.Candle.Resample

/-! Resampling in two steps. Where the buckets of the second step are a multiple of those of
the first one, each of them holds whole buckets of the first step, empty ones among them, and
gets from their candles what it would get from the candles they were made of. -/
namespace TradeBars.Candle
open Grid

variable {α : Type}

section Parts

theorem flatten_map_filter {β γ : Type} (p : β → Bool) (f : β → List γ) (xs : List β) :
    ((xs.filter p).map f).flatten = (xs.map fun x => if p x then f x else []).flatten := by
  induction xs with
  | nil => rfl
  | cons x xs ih => cases kept : p x <;> simp [kept, ih]

variable {step first last : Int} (positive : 0 < step) {cs : List (Candle α)}
  (sorted : cs.Pairwise fun a b => a.openTime.le b.openTime = true) (spans : Spans cs first last)
include positive sorted spans

/-- A coarse bucket holds the fine buckets that start in it. -/
theorem flatten_finer_parts {coarse : Int} (divides : step ∣ coarse) (k : Nat) :
    (((List.range (covering step first last).count).filter fun i : Nat =>
        (covering coarse first last).bucket ((covering step first last).start i) ==
          (covering coarse first last).firstBucket + k).map
      ((covering step first last).part · cs)).flatten =
      (covering coarse first last).part k cs := by
  let fine := covering step first last
  let wide := covering coarse first last
  let within (i : Nat) : Bool := wide.bucket (fine.start i) == wide.firstBucket + k
  -- all candles of a fine bucket go where its first second goes
  have inner (i : Nat) :
      wide.part k (fine.part i cs) = if within i then fine.part i cs else [] := by
    have same : ∀ c ∈ fine.part i cs,
        (wide.bucket c.openTime.seconds == wide.firstBucket + k) = within i := by
      intro c member
      have inside := (List.mem_filter.mp member).2
      rw [beq_iff_eq] at inside
      rw [← bucket_start positive divides inside]
    rw [part, List.filter_congr same]
    cases within i with
    | true => exact List.filter_true _
    | false => exact List.filter_false _
  calc (((List.range fine.count).filter within).map (fine.part · cs)).flatten
    _ = ((List.range fine.count).map fun i => if within i then fine.part i cs else []).flatten :=
      flatten_map_filter _ _ _
    _ = ((List.range fine.count).map fun i => wide.part k (fine.part i cs)).flatten := by
      simp only [inner]
    _ = wide.part k ((List.range fine.count).map (fine.part · cs)).flatten := by
      rw [part, List.filter_flatten, List.map_map]
      rfl
    _ = wide.part k cs := by
      rw [flatten_parts (monotone_of_sorted positive sorted) (spans.covers positive)]

end Parts

section Resampled

variable [Scalar α] {step first last : Int} (positive : 0 < step) (cs : List (Candle α))
include positive

theorem pairwise_resampled : (resampled (covering step first last) cs).Pairwise
    fun a b => a.openTime.le b.openTime = true := by
  rw [resampled, List.pairwise_map]
  apply List.pairwise_lt_range.imp
  intro i j before
  have later : (covering step first last).start i ≤ (covering step first last).start j :=
    (start_le_iff positive).mpr before.le
  simp only [Instant.le_iff, openTime_bar]
  omega

theorem spans_resampled (order : first ≤ last) : Spans (resampled (covering step first last) cs)
    ((covering step first last).start 0)
    ((covering step first last).start ((covering step first last).count - 1)) := by
  have bucketed : 0 < (covering step first last).count := count_pos positive order
  refine ⟨⟨_, mem_resampled.mpr ⟨0, bucketed, rfl⟩, ?_⟩,
    ⟨_, mem_resampled.mpr ⟨_, Nat.sub_one_lt bucketed.ne', rfl⟩, ?_⟩, ?_, ?_⟩
  · rw [openTime_bar]
  · rw [openTime_bar]
  · intro c member
    obtain ⟨i, -, rfl⟩ := mem_resampled.mp member
    rw [openTime_bar]
    exact (start_le_iff positive).mpr (Nat.zero_le i)
  · intro c member
    obtain ⟨i, within, rfl⟩ := mem_resampled.mp member
    rw [openTime_bar]
    exact (start_le_iff positive).mpr (by omega)

/-- Of the candles of a resample, a coarser bucket has those that start in it. -/
theorem part_resampled (wide : Grid) (k : Nat) :
    wide.part k (inOrder (resampled (covering step first last) cs)) =
      ((List.range (covering step first last).count).filter fun i : Nat =>
        wide.bucket ((covering step first last).start i) == wide.firstBucket + k).map fun i =>
          bar (covering step first last) cs i := by
  rw [inOrder_of_pairwise (pairwise_resampled positive cs), part, resampled]
  simp only [List.filter_map, Function.comp_def, openTime_bar]

end Resampled

section Twice

variable [Scalar α] {step coarse first last : Int} (positive : 0 < step) (divides : step ∣ coarse)
  {cs : List (Candle α)} (spans : Spans cs first last)
include positive divides spans

/-- The candles of a coarse bucket, before and after the first step. -/
theorem exists_parts (k : Nat) : ∃ is : List Nat,
    (covering coarse first last).part k (inOrder (resampled (covering step first last) cs)) =
        (is.map fun i => summary ⟨(covering step first last).start i, 0⟩
          ((covering step first last).part i (inOrder cs))) ∧
      (is.map ((covering step first last).part · (inOrder cs))).flatten =
        (covering coarse first last).part k (inOrder cs) := by
  have sorted := (stableOrder_inOrder cs).sorted
  have same : Spans (inOrder cs) first last := spans.of_mem fun _ => mem_inOrder.symm
  exact ⟨_, part_resampled positive cs _ k, flatten_finer_parts positive sorted same divides k⟩

theorem timedPrices_bar_resampled [LawfulScalar α] (k : Nat) :
    timedPrices (bar (covering coarse first last) (resampled (covering step first last) cs) k) =
      timedPrices (bar (covering coarse first last) cs k) := by
  obtain ⟨is, bars, whole⟩ := exists_parts positive divides spans k
  rw [bar, bar, bars, timedPrices_summary_parts, whole]

theorem volume_bar_resampled [ExactScalar α] (k : Nat) :
    (bar (covering coarse first last) (resampled (covering step first last) cs) k).volume =
      (bar (covering coarse first last) cs k).volume := by
  obtain ⟨is, bars, whole⟩ := exists_parts positive divides spans k
  rw [bar, bar, bars, volume_summary_parts, whole]

end Twice

section Steps

variable [Scalar α] {fine coarse : String} {i j : Interval} (readFine : Interval.read fine = .ok i)
  (readCoarse : Interval.read coarse = .ok j) (divides : i.seconds ∣ j.seconds)
  {cs : List (Candle α)}
include readFine readCoarse divides

theorem resample_twice {first last : Int} (spans : Spans cs first last)
    (after : Instant.firstSecond ≤ first) (before : last ≤ Instant.lastSecond) :
    resample cs fine = .ok (resampled (covering i.seconds first last) cs) ∧
      resample (resampled (covering i.seconds first last) cs) coarse =
        .ok (resampled (covering j.seconds first last)
          (resampled (covering i.seconds first last) cs)) ∧
      resample cs coarse = .ok (resampled (covering j.seconds first last) cs) := by
  have order := spans.first_le_last
  have bucketed : 0 < (covering i.seconds first last).count := count_pos i.positive order
  have front := start_bounds i.positive order bucketed
  have back := start_bounds i.positive order (Nat.sub_one_lt bucketed.ne')
  -- the second pass takes its midnight and its first bucket from the starts of the fine buckets
  have second := resample_eq readCoarse (spans_resampled i.positive cs order)
    ((firstSecond_le_midnight after).trans front.1) (back.2.trans before)
  rw [covering_starts i.positive divides order] at second
  exact ⟨resample_eq readFine spans after before, second, resample_eq readCoarse spans after before⟩

theorem exists_twice [LawfulScalar α] (representable : ∀ c ∈ cs, c.openTime.Representable) :
    ∃ between twice once, resample cs fine = .ok between ∧ resample between coarse = .ok twice ∧
      resample cs coarse = .ok once ∧ twice.map timedPrices = once.map timedPrices ∧
        (ExactScalar α → twice = once) := by
  by_cases nonempty : cs ≠ []
  · obtain ⟨first, last, spans⟩ := exists_spans nonempty
    obtain ⟨after, before⟩ := spans.representable representable
    obtain ⟨between, twice, once⟩ := resample_twice readFine readCoarse divides spans after before
    refine ⟨_, _, _, between, twice, once, ?_, ?_⟩
    · rw [map_resampled, map_resampled]
      apply List.map_congr_left
      intro k _
      exact timedPrices_bar_resampled i.positive divides spans k
    · intro _
      apply List.map_congr_left
      intro k _
      exact eq_of_timedPrices (timedPrices_bar_resampled i.positive divides spans k)
        (volume_bar_resampled i.positive divides spans k)
  · obtain rfl := not_not.mp nonempty
    exact ⟨[], [], [], resample_nil readFine, resample_nil readCoarse, resample_nil readCoarse,
      rfl, fun _ => rfl⟩

end Steps

/-- Resampling a resample gives what the wider buckets give at once: the same times and prices,
and the same volumes as far as sums are exact. -/
theorem resample_resample {fine coarse : String} {i j : Interval}
    (readFine : Interval.read fine = .ok i) (readCoarse : Interval.read coarse = .ok j)
    (divides : i.seconds ∣ j.seconds) :
    (∀ cs : List (Candle Float), (∀ c ∈ cs, c.openTime.Representable) →
      ∃ between twice once, resample cs fine = .ok between ∧ resample between coarse = .ok twice ∧
        resample cs coarse = .ok once ∧ twice.map timedPrices = once.map timedPrices) ∧
    ∀ (K : Type) [Field K] [LinearOrder K] (cs : List (Candle (Exact K))),
      (∀ c ∈ cs, c.openTime.Representable) →
      ∃ between once, resample cs fine = .ok between ∧ resample between coarse = .ok once ∧
        resample cs coarse = .ok once := by
  constructor
  · intro cs representable
    obtain ⟨between, twice, once, first, second, direct, prices, -⟩ :=
      exists_twice readFine readCoarse divides representable
    exact ⟨between, twice, once, first, second, direct, prices⟩
  · intro K _ _ cs representable
    obtain ⟨between, twice, once, first, second, direct, -, same⟩ :=
      exists_twice readFine readCoarse divides representable
    exact ⟨between, twice, first, second, (same inferInstance).symm ▸ direct⟩

theorem resample_resample_hours : Interval.read "4h" = .ok ⟨14400, by decide, by decide⟩ ∧
    Interval.read "36h" = .ok ⟨129600, by decide, by decide⟩ ∧ (14400 : Int) ∣ 129600 ∧
    ∃ between once, resample [(⟨⟨100000, 0⟩, some (1 / 3), none, none, none, some 2⟩ :
        Candle (Exact Rat)), ⟨⟨-1, 5⟩, none, some 7, none, none, some (1 / 3)⟩] "4h" = .ok between ∧
      resample between "36h" = .ok once := by
  have four : Interval.read "4h" = .ok ⟨14400, by decide, by decide⟩ := by decide
  have many : Interval.read "36h" = .ok ⟨129600, by decide, by decide⟩ := by decide
  have divides : (14400 : Int) ∣ 129600 := by decide
  refine ⟨four, many, divides, ?_⟩
  obtain ⟨between, once, first, second, -⟩ := (resample_resample four many divides).2 Rat
    [⟨⟨100000, 0⟩, some (1 / 3), none, none, none, some 2⟩,
      ⟨⟨-1, 5⟩, none, some 7, none, none, some (1 / 3)⟩]
    (by simp [Instant.Representable, Instant.firstSecond, Instant.lastSecond])
  exact ⟨between, once, first, second⟩

end TradeBars.Candle
