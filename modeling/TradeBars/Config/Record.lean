import TradeBars.Config.Basic
import TradeBars.Json.Reader

/-! Settings as JSON. A section that is left out has its default; within a section
every field must be there. -/
namespace TradeBars.Config

def ofUInt64 (n : UInt64) : Json := .num (.int n.toNat)

def Instrument.ofJson? (v : Json) : Option Instrument := do
  match ← v.fields? ["symbol", "exchange"] 0 with
  | [symbol, exchange] =>
    return ⟨← Json.required Json.string? symbol, ← Json.required Json.string? exchange⟩
  | _ => failure

def Instrument.toJson (i : Instrument) : Json :=
  .obj [("symbol", .str i.symbol), ("exchange", .str i.exchange)]

def TickBars.ofJson? (v : Json) : Option TickBars := do
  match ← v.fields? ["tick_size", "max_records"] 0 with
  | [tickSize, maxRecords] =>
    return ⟨← Json.required Json.uint32? tickSize, ← Json.required Json.uint64? maxRecords⟩
  | _ => failure

def TickBars.toJson (t : TickBars) : Json :=
  .obj [("tick_size", .num (.int t.tickSize.toNat)), ("max_records", ofUInt64 t.maxRecords)]

def DollarBars.ofJson? (v : Json) : Option DollarBars := do
  match ← v.fields? ["dollar_size"] 0 with
  | [dollarSize] => return ⟨← Json.required Json.string? dollarSize⟩
  | _ => failure

def DollarBars.toJson (d : DollarBars) : Json := .obj [("dollar_size", .str d.dollarSize)]

def Backfill.ofJson? (v : Json) : Option Backfill := do
  match ← v.fields? ["retry_delay_ms", "max_fetch_limit"] 0 with
  | [retryDelay, maxFetchLimit] =>
    return ⟨← Json.required Json.uint64? retryDelay, ← Json.required Json.uint64? maxFetchLimit⟩
  | _ => failure

def Backfill.toJson (b : Backfill) : Json :=
  .obj [("retry_delay_ms", ofUInt64 b.retryDelay), ("max_fetch_limit", ofUInt64 b.maxFetchLimit)]

def TrendAngle.ofJson? (v : Json) : Option TrendAngle := do
  match ← v.fields? ["sma1_length", "sma2_length", "sma3_length", "angle_length"] 0 with
  | [average1, average2, average3, angle] =>
    return ⟨← Json.required Json.uint64? average1, ← Json.required Json.uint64? average2,
      ← Json.required Json.uint64? average3, ← Json.required Json.uint64? angle⟩
  | _ => failure

def TrendAngle.toJson (t : TrendAngle) : Json :=
  .obj [("sma1_length", ofUInt64 t.average1), ("sma2_length", ofUInt64 t.average2),
    ("sma3_length", ofUInt64 t.average3), ("angle_length", ofUInt64 t.angle)]

def sectionNames : List String :=
  ["instrument", "tick_bars", "dollar_bars", "backfill", "trend_angle", "aliases"]

def ofJson? (v : Json) : Option Config := do
  match ← v.fields? sectionNames 6 with
  | [instrument, tickBars, dollarBars, backfill, trendAngle, aliases] =>
    return {
      instrument := ← Json.defaulted {} Instrument.ofJson? instrument
      tickBars := ← Json.defaulted {} TickBars.ofJson? tickBars
      dollarBars := ← Json.defaulted {} DollarBars.ofJson? dollarBars
      backfill := ← Json.defaulted {} Backfill.ofJson? backfill
      trendAngle := ← Json.defaulted {} TrendAngle.ofJson? trendAngle
      aliases := ← Json.defaulted .binance Aliases.ofJson? aliases }
  | _ => failure

def toJson (c : Config) : Json :=
  .obj [("instrument", c.instrument.toJson), ("tick_bars", c.tickBars.toJson),
    ("dollar_bars", c.dollarBars.toJson), ("backfill", c.backfill.toJson),
    ("trend_angle", c.trendAngle.toJson), ("aliases", c.aliases.toJson)]

/-- The settings of a JSON text, not yet checked. -/
def decode (text : String) : Except Fault Config :=
  match Json.read? text >>= ofJson? with
  | some c => .ok c
  | none => .error .json

/-- The settings of a JSON text, checked. -/
def ofText (text : String) : Except Fault Config := decode text >>= validated

/-- The settings in a file, given its contents if it could be read. -/
def ofFile (contents : Option String) : Except Fault Config :=
  match contents with
  | some text => ofText text
  | none => .error .unreadable

end TradeBars.Config
