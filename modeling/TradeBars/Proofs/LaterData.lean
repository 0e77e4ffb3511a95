import TradeBars.Proofs.Candle.Resample
import TradeBars.Proofs.Ohlcv.DollarBars
import TradeBars.Proofs.Ohlcv.TickBars

/-! Data that come later do not change the bars that are there. The order of time puts them
behind all the rest, so that each converter goes on from where it was; of a resample only the
last bucket may still be filled. -/
namespace TradeBars

namespace Ohlcv

variable {α : Type} [Scalar α]

/-- Entries at the end go into the run that those before them have left. -/
theorem Run.bars_append (threshold : α) (r : Run α) (es fs : List (Entry α)) : ∃ after : Run α,
    Run.bars threshold r (es ++ fs) = Run.bars threshold r es ++ Run.bars threshold after fs := by
  induction es generalizing r with
  | nil => exact ⟨r, rfl⟩
  | cons e es ih =>
    rw [List.cons_append, Run.bars, Run.bars]
    obtain ⟨bar?, next⟩ := r.push threshold e
    obtain ⟨after, same⟩ := ih next
    refine ⟨after, ?_⟩
    cases bar? with
    | none => exact same
    | some bar => exact congrArg (bar :: ·) same

theorem Run.prefix_bars (threshold : α) (r : Run α) (es fs : List (Entry α)) :
    Run.bars threshold r es <+: Run.bars threshold r (es ++ fs) := by
  obtain ⟨after, same⟩ := Run.bars_append threshold r es fs
  rw [same]
  exact List.prefix_append _ _

omit [Scalar α] in
/-- Only full groups count, and more elements change none of them. -/
theorem prefix_groups {β : Type} {n : Nat} (positive : 0 < n) (xs ys : List β) :
    groups n xs <+: groups n (xs ++ ys) := by
  rw [List.prefix_iff_getElem?]
  intro i within
  obtain ⟨inside, group⟩ := (getElem?_groups positive).mp (List.getElem?_eq_getElem within)
  apply (getElem?_groups positive).mpr
  rw [← group, List.length_append, List.drop_append_of_le_length (by omega),
    List.take_append_of_le_length]
  · exact ⟨by omega, rfl⟩
  · rw [List.length_drop]
    omega

section Sources

variable {size : String} {bars : List (Ohlcv α)}

theorem exists_dollarBarsOfRows_append {xs ys : List (TradeRow α)}
    (later : ∀ x ∈ xs, ∀ y ∈ ys, x.timestamp ≤ y.timestamp)
    (made : dollarBarsOfRows xs size = .ok bars) :
    ∃ all, dollarBarsOfRows (xs ++ ys) size = .ok all ∧ bars <+: all := by
  obtain ⟨d, read, -⟩ := exists_of_bind made
  rw [dollarBarsOfRows_eq read] at made
  cases made
  refine ⟨_, dollarBarsOfRows_eq read _, ?_⟩
  rw [TimeOrder.inTimeOrder_append _ later, List.filterMap_append]
  exact Run.prefix_bars _ _ _ _

theorem exists_dollarBarsOfBars_append {xs ys : List (Ohlcv α)}
    (later : ∀ x ∈ xs, ∀ y ∈ ys, x.timestamp ≤ y.timestamp)
    (made : dollarBarsOfBars xs size = .ok bars) :
    ∃ all, dollarBarsOfBars (xs ++ ys) size = .ok all ∧ bars <+: all := by
  obtain ⟨d, read, -⟩ := exists_of_bind made
  rw [dollarBarsOfBars_eq read] at made
  cases made
  refine ⟨_, dollarBarsOfBars_eq read _, ?_⟩
  rw [TimeOrder.inTimeOrder_append _ later, List.map_append]
  exact Run.prefix_bars _ _ _ _

theorem exists_tickBars_append {xs ys : List (TradeRow α)} {count : Nat}
    (later : ∀ x ∈ xs, ∀ y ∈ ys, x.timestamp ≤ y.timestamp)
    (made : tickBars xs count = .ok bars) :
    ∃ all, tickBars (xs ++ ys) count = .ok all ∧ bars <+: all := by
  have nonzero : count ≠ 0 := by
    rintro rfl
    contradiction
  rw [tickBars_eq_filterMap nonzero] at made
  cases made
  refine ⟨_, tickBars_eq_filterMap nonzero _, ?_⟩
  rw [TimeOrder.inTimeOrder_append _ later, List.filterMap_append]
  exact (prefix_groups (Nat.pos_of_ne_zero nonzero) _ _).filterMap _

end Sources

end Ohlcv

namespace Candle
open Grid

variable {α : Type}

section Append

variable {xs ys : List (Candle α)} {step first last last' : Int}

theorem inOrder_append
    (later : ∀ x ∈ xs, ∀ y ∈ ys, x.openTime.le y.openTime = true) :
    inOrder (xs ++ ys) = inOrder xs ++ inOrder ys :=
  (eq_inOrder ((stableOrder_inOrder xs).append (stableOrder_inOrder ys) later)).symm

theorem Spans.append (spans : Spans xs first last)
    (later : ∀ x ∈ xs, ∀ y ∈ ys, x.openTime.seconds ≤ y.openTime.seconds) :
    ∃ last', last ≤ last' ∧ Spans (xs ++ ys) first last' := by
  obtain ⟨a, ha, earliest⟩ := spans.first_mem
  obtain ⟨b, hb, latest⟩ := spans.last_mem
  obtain ⟨first', last', all⟩ := exists_spans (List.append_ne_nil_of_left_ne_nil
    (List.ne_nil_of_mem ha) ys)
  refine ⟨last', latest ▸ all.le_last b (List.mem_append_left _ hb), ?_⟩
  have same : first' = first := by
    apply le_antisymm
    · exact earliest ▸ all.first_le a (List.mem_append_left _ ha)
    · obtain ⟨c, hc, rfl⟩ := all.first_mem
      rcases List.mem_append.mp hc with old | new
      · exact spans.first_le c old
      · exact earliest ▸ later a ha c new
  exact same ▸ all

/-- The buckets before the last one have all their candles already. -/
theorem part_append (xs : List (Candle α)) (positive : 0 < step) (order : first ≤ last)
    (later : ∀ y ∈ ys, last ≤ y.openTime.seconds) {i : Nat}
    (before : i + 1 < (covering step first last).count) :
    (covering step first last).part i (xs ++ ys) = (covering step first last).part i xs := by
  have count := count_eq positive order
  have noneLater : (covering step first last).part i ys = [] := by
    rw [part, List.filter_eq_nil_iff]
    intro y member
    have := bucket_le (g := covering step first last) positive (later y member)
    rw [beq_iff_eq]
    omega
  calc (covering step first last).part i (xs ++ ys)
    _ = (covering step first last).part i xs ++ (covering step first last).part i ys :=
      List.filter_append _ _
    _ = (covering step first last).part i xs := by rw [noneLater, List.append_nil]

variable [Scalar α]

theorem dropLast_resampled (g : Grid) (cs : List (Candle α)) :
    (resampled g cs).dropLast = (List.range (g.count - 1)).map (bar g cs) := by
  rw [resampled, ← List.map_dropLast]
  cases g.count with
  | zero => rfl
  | succ count => rw [List.range_succ, List.dropLast_concat, Nat.add_sub_cancel]

theorem count_le_count (positive : 0 < step) (after : last ≤ last') :
    (covering step first last).count ≤ (covering step first last').count := by
  have further : (covering step first last).bucket last ≤ (covering step first last').bucket last' :=
    bucket_le (g := covering step first last') positive after
  have same : (covering step first last).bucket first = (covering step first last').bucket first :=
    rfl
  rw [count_covering, count_covering]
  omega

theorem resampled_append (positive : 0 < step) (order : first ≤ last) (after : last ≤ last')
    (sorted : inOrder (xs ++ ys) = inOrder xs ++ inOrder ys)
    (later : ∀ y ∈ ys, last ≤ y.openTime.seconds) :
    (resampled (covering step first last) xs).dropLast <+:
      resampled (covering step first last') (xs ++ ys) := by
  have longer : (covering step first last).count ≤ (covering step first last').count :=
    count_le_count positive after
  obtain ⟨more, count⟩ := Nat.exists_eq_add_of_le ((Nat.sub_le _ 1).trans longer)
  have kept : (List.range ((covering step first last).count - 1)).map
        (bar (covering step first last') (xs ++ ys)) =
      (List.range ((covering step first last).count - 1)).map
        (bar (covering step first last) xs) := by
    apply List.map_congr_left
    intro i within
    rw [List.mem_range] at within
    have same := part_append (inOrder xs) positive order
      (fun y member => later y (mem_inOrder.mp member)) (Nat.add_lt_of_lt_sub within)
    rw [bar, bar, sorted, ← same]
    rfl
  rw [dropLast_resampled, resampled, count, List.range_add, List.map_append, kept]
  exact List.prefix_append _ _

end Append

theorem exists_resample_append [Scalar α] {xs ys bars : List (Candle α)} {text : String}
    (representable : ∀ c ∈ xs ++ ys, c.openTime.Representable)
    (later : ∀ x ∈ xs, ∀ y ∈ ys, x.openTime.le y.openTime = true)
    (made : resample xs text = .ok bars) :
    ∃ all, resample (xs ++ ys) text = .ok all ∧ bars.dropLast <+: all := by
  obtain ⟨interval, read, -⟩ := exists_of_bind made
  have seconds : ∀ x ∈ xs, ∀ y ∈ ys, x.openTime.seconds ≤ y.openTime.seconds := by
    intro x hx y hy
    have := Instant.le_iff.mp (later x hx y hy)
    omega
  by_cases empty : xs = []
  · obtain ⟨all, made'⟩ := exists_resample read representable
    subst empty
    rw [resample_nil read] at made
    cases made
    exact ⟨all, made', List.nil_prefix⟩
  · obtain ⟨first, last, spans⟩ := exists_spans empty
    obtain ⟨last', after, spans'⟩ := spans.append seconds
    obtain ⟨lower, upper⟩ := spans'.representable representable
    rw [resample_eq read spans lower (after.trans upper)] at made
    cases made
    obtain ⟨b, hb, latest⟩ := spans.last_mem
    exact ⟨_, resample_eq read spans' lower upper,
      resampled_append interval.positive spans.first_le_last after (inOrder_append later)
        fun y member => latest ▸ seconds b hb y member⟩

end Candle

open Ohlcv Candle

/-- What is appended to archived data, and is not earlier, leaves the bars in place: those of the
longer list begin with those of the shorter one. The last candle of a resample is excepted, which
takes what still falls into its bucket. -/
theorem bars_of_later_data {α : Type} [Scalar α] :
    (∀ xs ys : List (TradeRow α), (∀ x ∈ xs, ∀ y ∈ ys, x.timestamp ≤ y.timestamp) →
      (∀ size bars, dollarBarsOfRows xs size = .ok bars →
        ∃ all, dollarBarsOfRows (xs ++ ys) size = .ok all ∧ bars <+: all) ∧
      ∀ size bars, tickBars xs size = .ok bars →
        ∃ all, tickBars (xs ++ ys) size = .ok all ∧ bars <+: all) ∧
    (∀ xs ys : List (Ohlcv α), (∀ x ∈ xs, ∀ y ∈ ys, x.timestamp ≤ y.timestamp) →
      ∀ size bars, dollarBarsOfBars xs size = .ok bars →
        ∃ all, dollarBarsOfBars (xs ++ ys) size = .ok all ∧ bars <+: all) ∧
    ∀ xs ys : List (Candle α), (∀ c ∈ xs ++ ys, c.openTime.Representable) →
      (∀ x ∈ xs, ∀ y ∈ ys, x.openTime.le y.openTime = true) →
      ∀ interval bars, resample xs interval = .ok bars →
        ∃ all, resample (xs ++ ys) interval = .ok all ∧ bars.dropLast <+: all := by
  refine ⟨?_, ?_, ?_⟩
  · intro xs ys later
    constructor
    · intro size bars made
      exact exists_dollarBarsOfRows_append later made
    · intro size bars made
      exact exists_tickBars_append later made
  · intro xs ys later size bars made
    exact exists_dollarBarsOfBars_append later made
  · intro xs ys representable later interval bars made
    exact exists_resample_append representable later made

/-- A trade of the same second as the last one comes after it, and the hour of the last candle is
not over. -/
theorem bars_of_later_data_same_time :
    let rows : List (TradeRow Float) := [⟨5, some 1, some 1⟩, ⟨7, some 2, some 2⟩]
    let candles : List (Candle Float) :=
      [⟨⟨0, 0⟩, some 1, none, none, none, none⟩, ⟨⟨3600, 0⟩, some 2, none, none, none, none⟩]
    (∀ x ∈ rows, ∀ y ∈ [(⟨7, some 1, some 3⟩ : TradeRow Float)], x.timestamp ≤ y.timestamp) ∧
      dollarBarsOfRows rows "3" = .ok [⟨7, 1, 2, 1, 2, 3⟩] ∧
      (∃ all, dollarBarsOfRows (rows ++ [⟨7, some 1, some 3⟩]) "3" = .ok all ∧
        [⟨7, 1, 2, 1, 2, 3⟩] <+: all) ∧
      (∀ c ∈ candles ++ candles.drop 1, c.openTime.Representable) ∧
      (∀ x ∈ candles, ∀ y ∈ candles.drop 1, x.openTime.le y.openTime = true) ∧
      ∃ bars all, resample candles "1h" = .ok bars ∧ bars.length = 2 ∧
        resample (candles ++ candles.drop 1) "1h" = .ok all ∧ bars.dropLast <+: all := by
  intro rows candles
  have later : ∀ x ∈ rows, ∀ y ∈ [(⟨7, some 1, some 3⟩ : TradeRow Float)],
      x.timestamp ≤ y.timestamp := by
    simp [rows]
  have bars : dollarBarsOfRows rows "3" = .ok [⟨7, 1, 2, 1, 2, 3⟩] := by
    have read : DollarSize.read "3" = .ok ⟨3⟩ := by decide
    have inOrder : inTimeOrder (·.timestamp) rows = rows :=
      TimeOrder.inTimeOrder_of_pairwise _ (by decide)
    rw [dollarBarsOfRows_eq read, inOrder]
    rfl
  have representable : ∀ c ∈ candles ++ candles.drop 1, c.openTime.Representable := by
    simp [candles, Instant.Representable, Instant.firstSecond, Instant.lastSecond]
  have later' : ∀ x ∈ candles, ∀ y ∈ candles.drop 1, x.openTime.le y.openTime = true := by
    simp [candles, Instant.le]
  have read : Interval.read "1h" = .ok ⟨3600, by decide, by decide⟩ := by decide
  have spans : Spans candles 0 3600 := spans_of_sorted (by decide)
  have made := resample_eq read spans (by decide) (by decide)
  obtain ⟨all, whole, kept⟩ := bars_of_later_data.2.2 _ _ representable later' _ _ made
  exact ⟨later, bars, (bars_of_later_data.1 _ _ later).1 _ _ bars, representable, later', _, all,
    made, by decide, whole, kept⟩

end TradeBars
