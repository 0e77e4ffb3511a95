import TradeBars.Config.Record
import TradeBars.Proofs.Json.Reordered

/-! Settings as JSON records. The order of their members makes no difference, and what a section or
a table of aliases is written to is read as that section or table. -/
namespace TradeBars
open Json

section Order

theorem TimestampUnit.unordered_ofJson? : Unordered TimestampUnit.ofJson? := by
  intro v w same
  rw [ofJson?, ofJson?, unordered_alternative? v w same]

theorem Aliases.unordered_ofJson? : Unordered Aliases.ofJson? := by
  refine Unordered.record fun fields fields' each => ?_
  obtain _ | ⟨timestamp, _ | ⟨price, _ | ⟨qty, _ | ⟨symbol, _ | ⟨side, _ | ⟨maker,
    _ | ⟨unit, _ | _⟩⟩⟩⟩⟩⟩⟩ := each
  case cons.cons.cons.cons.cons.cons.cons.nil =>
    simp only [unordered_string?.required timestamp, unordered_string?.required price,
      unordered_string?.required qty, unordered_string?.required symbol,
      unordered_string?.nullable side, unordered_string?.nullable maker,
      TimestampUnit.unordered_ofJson?.defaulted _ unit]
  all_goals rfl

namespace Config

theorem Instrument.unordered_ofJson? : Unordered Instrument.ofJson? := by
  refine Unordered.record fun fields fields' each => ?_
  obtain _ | ⟨symbol, _ | ⟨exchange, _ | _⟩⟩ := each
  case cons.cons.nil =>
    simp only [unordered_string?.required symbol, unordered_string?.required exchange]
  all_goals rfl

theorem TickBars.unordered_ofJson? : Unordered TickBars.ofJson? := by
  refine Unordered.record fun fields fields' each => ?_
  obtain _ | ⟨tickSize, _ | ⟨maxRecords, _ | _⟩⟩ := each
  case cons.cons.nil =>
    simp only [unordered_uint32?.required tickSize, unordered_uint64?.required maxRecords]
  all_goals rfl

theorem DollarBars.unordered_ofJson? : Unordered DollarBars.ofJson? := by
  refine Unordered.record fun fields fields' each => ?_
  obtain _ | ⟨dollarSize, _ | _⟩ := each
  case cons.nil => simp only [unordered_string?.required dollarSize]
  all_goals rfl

theorem Backfill.unordered_ofJson? : Unordered Backfill.ofJson? := by
  refine Unordered.record fun fields fields' each => ?_
  obtain _ | ⟨retryDelay, _ | ⟨maxFetchLimit, _ | _⟩⟩ := each
  case cons.cons.nil =>
    simp only [unordered_uint64?.required retryDelay, unordered_uint64?.required maxFetchLimit]
  all_goals rfl

theorem TrendAngle.unordered_ofJson? : Unordered TrendAngle.ofJson? := by
  refine Unordered.record fun fields fields' each => ?_
  obtain _ | ⟨average1, _ | ⟨average2, _ | ⟨average3, _ | ⟨angle, _ | _⟩⟩⟩⟩ := each
  case cons.cons.cons.cons.nil =>
    simp only [unordered_uint64?.required average1, unordered_uint64?.required average2,
      unordered_uint64?.required average3, unordered_uint64?.required angle]
  all_goals rfl

theorem unordered_ofJson? : Unordered ofJson? := by
  refine Unordered.record fun fields fields' each => ?_
  obtain _ | ⟨instrument, _ | ⟨tickBars, _ | ⟨dollarBars, _ | ⟨backfill, _ | ⟨trendAngle,
    _ | ⟨aliases, _ | _⟩⟩⟩⟩⟩⟩ := each
  case cons.cons.cons.cons.cons.cons.nil =>
    simp only [Instrument.unordered_ofJson?.defaulted _ instrument,
      TickBars.unordered_ofJson?.defaulted _ tickBars,
      DollarBars.unordered_ofJson?.defaulted _ dollarBars,
      Backfill.unordered_ofJson?.defaulted _ backfill,
      TrendAngle.unordered_ofJson?.defaulted _ trendAngle,
      Aliases.unordered_ofJson?.defaulted _ aliases]
  all_goals rfl

end Config

end Order

section Inverse

theorem Json.uint64?_ofUInt64 (n : UInt64) : uint64? (Config.ofUInt64 n) = some n := by
  have bound := n.toNat_lt
  simp [uint64?, Config.ofUInt64, intIn?]
  omega

theorem Json.uint32?_toNat (n : UInt32) : uint32? (.num (.int n.toNat)) = some n := by
  have bound := n.toNat_lt
  simp [uint32?, intIn?]
  omega

/-- The keys of the side may be left out, and then they are read as unset. -/
theorem Aliases.ofJson?_toJson (a : Aliases) : ofJson? a.toJson = some a := by
  obtain ⟨timestamp, price, qty, symbol, _ | side, _ | maker, _ | _⟩ := a
  all_goals
    simp [ofJson?, toJson, fieldNames, fields?, member?, required, nullable, defaulted, string?,
      TimestampUnit.name, TimestampUnit.ofJson?, alternative?]

namespace Config

theorem Instrument.ofJson?_toJson (i : Instrument) : ofJson? i.toJson = some i := by
  simp [ofJson?, toJson, fields?, member?, required, string?]

theorem TickBars.ofJson?_toJson (t : TickBars) : ofJson? t.toJson = some t := by
  simp [ofJson?, toJson, fields?, member?, required, uint32?_toNat, uint64?_ofUInt64]

theorem DollarBars.ofJson?_toJson (d : DollarBars) : ofJson? d.toJson = some d := by
  simp [ofJson?, toJson, fields?, member?, required, string?]

theorem Backfill.ofJson?_toJson (b : Backfill) : ofJson? b.toJson = some b := by
  simp [ofJson?, toJson, fields?, member?, required, uint64?_ofUInt64]

theorem TrendAngle.ofJson?_toJson (t : TrendAngle) : ofJson? t.toJson = some t := by
  simp [ofJson?, toJson, fields?, member?, required, uint64?_ofUInt64]

end Config

end Inverse

end TradeBars
