import TradeBars.Proofs.Candle.Buckets

/-! Buckets without data. A bar is called empty if it has no price, and so is the bar of a bucket
in which only volumes were recorded. All of its values are missing exactly if nothing at all was
recorded in its bucket. -/
namespace TradeBars.Candle

variable {α : Type}

def prices (c : Candle α) : List (Option α) := [c.openPrice, c.high, c.low, c.close]

/-- The values of all columns. -/
def values (c : Candle α) : List (Option α) := c.prices ++ [c.volume]

/-- A candle begins in the `step` seconds from the start of a bar on. -/
def BeginsIn (bar : Candle α) (step : Int) (c : Candle α) : Prop :=
  bar.openTime.seconds ≤ c.openTime.seconds ∧
    c.openTime.seconds < bar.openTime.seconds + step

theorem isEmpty_iff (c : Candle α) : c.isEmpty = true ↔ ∀ v ∈ c.prices, v = none := by
  simp [isEmpty, prices, and_assoc]

variable [Scalar α]

/-- No candle has a value in the columns. -/
def Unrecorded (columns : Candle α → List (Option α)) (cs : List (Candle α)) : Prop :=
  ∀ c ∈ cs, ∀ v ∈ columns c, Scalar.present v = none

section Summary

variable {bar : Candle α} {cs : List (Candle α)} (summary : Summarizes bar cs)
include summary

theorem Summarizes.isEmpty_iff : bar.isEmpty = true ↔ Unrecorded prices cs := by
  simp [Candle.isEmpty_iff, Unrecorded, prices, summary.openPrice_none, summary.high_none,
    summary.low_none, summary.close_none, Scalar.present_eq_none_iff, forall_and]

theorem Summarizes.values_none_iff : (∀ v ∈ bar.values, v = none) ↔ Unrecorded values cs := by
  have noPrice := summary.isEmpty_iff
  rw [Candle.isEmpty_iff] at noPrice
  simp only [Unrecorded, values, List.forall_mem_append, List.forall_mem_singleton, forall_and,
    noPrice, summary.volume_none, Scalar.present_eq_none_iff]

end Summary

theorem eq_resampled_of_ok {text : String} {interval : Interval}
    (read : Interval.read text = .ok interval) {cs bars : List (Candle α)} {bar : Candle α}
    (made : resample cs text = .ok bars) (member : bar ∈ bars) :
    ∃ g : Grid, ∃ i, g.step = interval.seconds ∧ bar = Candle.bar g cs i := by
  cases cs with
  | nil =>
    cases (resample_nil read).symm.trans made
    contradiction
  | cons c rest =>
    obtain ⟨first, last, spans⟩ := exists_spans (List.cons_ne_nil c rest)
    rw [resample_eq_starts read spans] at made
    cases starts : (Grid.covering interval.seconds first last).starts with
    | error fault =>
      rw [starts] at made
      contradiction
    | ok ts =>
      rw [starts] at made
      cases made
      obtain ⟨i, -, rfl⟩ := mem_resampled.mp member
      exact ⟨_, i, rfl, rfl⟩

theorem mem_part_inOrder {g : Grid} (positive : 0 < g.step) {cs : List (Candle α)} {i : Nat}
    {c : Candle α} :
    c ∈ g.part i (inOrder cs) ↔ c ∈ cs ∧ BeginsIn (bar g cs i) g.step c := by
  have next : g.start i + g.step = g.origin + (g.firstBucket + i + 1) * g.step := by
    rw [Grid.start]
    ring
  rw [Grid.part, List.mem_filter, mem_inOrder, beq_iff_eq, Grid.bucket_eq_iff positive, ← next,
    BeginsIn, openTime_bar]
  rfl

/-- A bar of a resample is called empty exactly if no candle of its bucket has a price, and it has
no value at all exactly if none of them has any. -/
theorem isEmpty_of_resample [LawfulScalar α] {text : String} {interval : Interval}
    (read : Interval.read text = .ok interval) {cs bars : List (Candle α)}
    (made : resample cs text = .ok bars) {bar : Candle α} (member : bar ∈ bars) :
    let held := {c | c ∈ cs ∧ BeginsIn bar interval.seconds c}
    (bar.isEmpty = true ↔ ∀ c ∈ held, ∀ v ∈ c.prices, Scalar.present v = none) ∧
      ((∀ v ∈ bar.values, v = none) ↔ ∀ c ∈ held, ∀ v ∈ c.values, Scalar.present v = none) := by
  obtain ⟨g, i, step, rfl⟩ := eq_resampled_of_ok read made member
  have positive : 0 < g.step := step ▸ interval.positive
  have summary : Summarizes (Candle.bar g cs i) (g.part i (inOrder cs)) :=
    (columns_summary _ _).summarizes
  have isEmpty := summary.isEmpty_iff
  have dataless := summary.values_none_iff
  simp only [Unrecorded, mem_part_inOrder positive, step] at isEmpty dataless
  exact ⟨isEmpty, dataless⟩

/-- In the first minute a volume and nothing else, in the second a price. -/
theorem isEmpty_of_resample_minutes :
    let volume : Candle Float := ⟨⟨0, 0⟩, none, none, none, none, some 5⟩
    let price : Candle Float := ⟨⟨60, 0⟩, none, none, none, some 1, none⟩
    Interval.read "1m" = .ok ⟨60, by decide, by decide⟩ ∧
      resample [volume, price] "1m" = .ok [volume, price] ∧ volume ∈ [volume, price] ∧
      price ∈ [volume, price] ∧ volume.isEmpty = true ∧ price.isEmpty = false := by
  intro volume price
  have read : Interval.read "1m" = .ok ⟨60, by decide, by decide⟩ := by decide
  have spans : Spans [volume, price] 0 60 := by constructor <;> simp [volume, price]
  have sorted : inOrder [volume, price] = [volume, price] := inOrder_of_pairwise (by decide)
  have bars : resampled (Grid.covering 60 0 60) [volume, price] = [volume, price] := by
    unfold resampled bar
    rw [sorted]
    rfl
  have made : resample [volume, price] "1m" = .ok [volume, price] :=
    (resample_eq read spans (by decide) (by decide)).trans (congrArg _ bars)
  have first : volume ∈ [volume, price] := List.mem_cons_self
  have second : price ∈ [volume, price] := List.mem_cons_of_mem _ List.mem_cons_self
  have number : Scalar.isNaN (1 : Float) = false := by decide
  refine ⟨read, made, first, second, ?_, ?_⟩
  · have empty := (isEmpty_of_resample read made first).1
    simpa [volume, price, BeginsIn, prices, Scalar.present] using empty
  · have empty := (isEmpty_of_resample read made second).1
    simpa [volume, price, BeginsIn, prices, Scalar.present, number] using empty

/-- A volume alone is data, and its bar is called empty nevertheless. -/
theorem isEmpty_of_lone_volume :
    let c : Candle Float := ⟨⟨0, 0⟩, none, none, none, none, some 5⟩
    resample [c] "1m" = .ok [c] ∧ BeginsIn c 60 c ∧ Scalar.present c.volume = some 5 ∧
      c.isEmpty = true := by
  intro c
  have read : Interval.read "1m" = .ok ⟨60, by decide, by decide⟩ := by decide
  have spans : Spans [c] 0 0 := by constructor <;> simp [c]
  have sorted : inOrder [c] = [c] := inOrder_of_pairwise (List.pairwise_singleton _ _)
  have bars : resampled (Grid.covering 60 0 0) [c] = [c] := by
    unfold resampled bar
    rw [sorted]
    rfl
  have made : resample [c] "1m" = .ok [c] :=
    (resample_eq read spans (by decide) (by decide)).trans (congrArg _ bars)
  exact ⟨made, by simp [BeginsIn, c], by decide, rfl⟩

end TradeBars.Candle
