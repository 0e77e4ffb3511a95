import TradeBars.Config.Basic
import TradeBars.Feed.Basic
import TradeBars.Ohlcv.DollarBars
import TradeBars.Proofs.Backfill.Calls
import TradeBars.Proofs.Trend.Locality

/-! What a check of the settings is good for. Each part of the program has conditions of its own;
settings without a fault meet all of them. -/
namespace TradeBars
open Ohlcv Trend

namespace Config

theorem fault?_eq_none_iff {config : Config} : config.fault? = none ↔
    0 < config.tickBars.tickSize.toNat ∧ 0 < config.tickBars.maxRecords.toNat ∧
      0 < config.backfill.maxFetchLimit.toNat ∧ config.trendAngle.fault? = none ∧
      ∃ size, DollarSize.read config.dollarBars.dollarSize = .ok size := by
  have tickSize : config.tickBars.tickSize = 0 ↔ config.tickBars.tickSize.toNat = 0 :=
    UInt32.toNat_inj.symm
  have maxRecords : config.tickBars.maxRecords = 0 ↔ config.tickBars.maxRecords.toNat = 0 :=
    UInt64.toNat_inj.symm
  have fetchLimit : config.backfill.maxFetchLimit = 0 ↔
      config.backfill.maxFetchLimit.toNat = 0 := UInt64.toNat_inj.symm
  unfold fault? DollarSize.read
  simp only [tickSize, maxRecords, fetchLimit]
  cases config.trendAngle.fault? <;>
    cases DollarSize.parse? config.dollarBars.dollarSize.toList <;> grind

theorem validated_eq_ok_iff {config config' : Config} :
    config.validated = .ok config' ↔ config.fault? = none ∧ config' = config := by
  unfold validated
  cases config.fault? with
  | none => simp [eq_comm]
  | some fault => simp

end Config

namespace Feed

variable {config : Config} {allocates : Nat → Bool}

/-- Without a fault all depends on the slots. -/
theorem ofConfig_of_valid (valid : config.fault? = none) : ofConfig config allocates =
    if allocates config.tickBars.maxRecords.toNat then
      .ok ⟨⟨.empty config.tickBars.maxRecords.toNat, config.tickBars.tickSize⟩, config.aliases, {}⟩
    else .error .allocation := by
  obtain ⟨someTrades, someBars, -⟩ := Config.fault?_eq_none_iff.mp valid
  rw [ofConfig, Config.validated_eq_ok_iff.mpr ⟨valid, rfl⟩]
  change Except.bind (Builder.new _ _ _) _ = _
  rw [Builder.new_of_positive someBars someTrades]
  split <;> rfl

theorem ofConfig_eq_error_iff {fault : Fault} : ofConfig config allocates = .error fault ↔
    config.validated = .error fault ∨ config.fault? = none ∧
      allocates config.tickBars.maxRecords.toNat = false ∧ fault = .allocation := by
  cases checked : config.validated with
  | error cause =>
    have faulty : config.fault? ≠ none := by
      intro valid
      rw [Config.validated_eq_ok_iff.mpr ⟨valid, rfl⟩] at checked
      contradiction
    rw [ofConfig, checked]
    simp only [faulty, false_and, or_false]
    constructor <;> rintro ⟨⟩ <;> rfl
  | ok accepted =>
    have valid := (Config.validated_eq_ok_iff.mp checked).1
    rw [ofConfig_of_valid valid]
    cases allocates config.tickBars.maxRecords.toNat with
    | true => simp
    | false => simp [valid, eq_comm]

end Feed

namespace Trend

variable {α : Type} [Angular α] {config : Config.TrendAngle}

theorem features_of_valid (valid : config.fault? = none) (bars : List (Bar α)) :
    ∃ f, features bars config = .ok f ∧ (f.isSome ↔ config.minBars < bars.length) := by
  by_cases enough : config.minBars < bars.length
  · obtain ⟨angle, -⟩ := fault?_eq_none_iff.mp valid
    have made : Window.new config.angle.toNat = .ok ⟨_, Nat.le_of_succ_le angle⟩ :=
      dif_pos (Nat.le_of_succ_le angle)
    exact ⟨_, features_eq_some_iff.mpr ⟨valid, enough, _, made, rfl⟩, iff_of_true rfl enough⟩
  · refine ⟨none, ?_, iff_of_false (by simp) enough⟩
    simp only [features, valid, if_pos (Nat.le_of_not_lt enough)]
    rfl

end Trend

namespace Ohlcv

variable {α : Type} [Scalar α] {size : String}

theorem dollarBars_of_size {d : DollarSize} (read : DollarSize.read size = .ok d) :
    (∀ rows : List (TradeRow α), ∃ bars, dollarBarsOfRows rows size = .ok bars) ∧
      ∀ olds : List (Ohlcv α), ∃ bars, dollarBarsOfBars olds size = .ok bars := by
  constructor
  · intro rows
    rw [dollarBarsOfRows, read]
    exact ⟨_, rfl⟩
  · intro olds
    rw [dollarBarsOfBars, read]
    exact ⟨_, rfl⟩

end Ohlcv

namespace Backfill

variable {α : Type} [Scalar α]

theorem Run.limit_pos {answers : Int → Nat → Option (List (Bar α)) → Prop} {maxFetchLimit : Nat}
    {start : Builder α} {events : List (Event α)} {s : Shared α}
    (run : Run answers maxFetchLimit start events s) (positive : 0 < maxFetchLimit) {upTo : Int}
    {limit : Nat} (member : (upTo, limit) ∈ calls events) : 0 < limit := by
  obtain ⟨before, after, rfl⟩ := exists_of_mem_calls member
  obtain ⟨moment, _, -, step⟩ := run.moments
  obtain ⟨-, -, rfl, -⟩ := step.called
  omega

end Backfill

end TradeBars
