import TradeBars.Bar.Basic
import TradeBars.Candle.Basic
import TradeBars.DollarSize
import TradeBars.Json.Record
import TradeBars.Ohlcv.Basic
import TradeBars.Time.Reader
import TradeBars.Trend.Features

/-! Reading back what was stored as JSON records: trades, bars, candles and features. -/
namespace TradeBars

def Side.ofJson? (v : Json) : Option Side :=
  match v.alternative? with
  | some "buy" => some .buy
  | some "sell" => some .sell
  | _ => none

def Trade.ofJson? (v : Json) : Option (Trade Float) := do
  match ← v.fields? ["timestamp", "price", "qty", "side", "symbol"] 0 with
  | [timestamp, price, qty, side, symbol] =>
    return {
      timestamp := ← Json.required Json.int64? timestamp
      price := ← Json.required Json.float? price
      qty := ← Json.required Json.float? qty
      side := ← Json.required Side.ofJson? side
      symbol := ← Json.required Json.string? symbol }
  | _ => failure

def TradeRow.ofJson? (v : Json) : Option (TradeRow Float) := do
  match ← v.fields? ["timestamp", "price", "qty"] 0 with
  | [timestamp, price, qty] =>
    return {
      timestamp := ← Json.required Json.int64? timestamp
      price := ← Json.nullable Json.float? price
      qty := ← Json.nullable Json.float? qty }
  | _ => failure

def Bar.fieldNames : List String :=
  ["timestamp", "open", "high", "low", "close", "volume", "quote_volume", "trade_count",
    "taker_buy_base_volume", "taker_buy_quote_volume"]

def Bar.ofJson? (v : Json) : Option (Bar Float) := do
  match ← v.fields? Bar.fieldNames 0 with
  | [timestamp, openPrice, high, low, close, volume, quoteVolume, tradeCount, takerBuyVolume,
      takerBuyQuote] =>
    return {
      timestamp := ← Json.required Json.int64? timestamp
      openPrice := ← Json.required Json.float? openPrice
      high := ← Json.required Json.float? high
      low := ← Json.required Json.float? low
      close := ← Json.required Json.float? close
      volume := ← Json.required Json.float? volume
      quoteVolume := ← Json.required Json.float? quoteVolume
      tradeCount := ← Json.required Json.uint32? tradeCount
      takerBuyVolume := ← Json.required Json.float? takerBuyVolume
      takerBuyQuote := ← Json.required Json.float? takerBuyQuote }
  | _ => failure

def Ohlcv.ofJson? (v : Json) : Option (Ohlcv Float) := do
  match ← v.fields? ["timestamp", "open", "high", "low", "close", "volume"] 0 with
  | [timestamp, openPrice, high, low, close, volume] =>
    return {
      timestamp := ← Json.required Json.int64? timestamp
      openPrice := ← Json.required Json.float? openPrice
      high := ← Json.required Json.float? high
      low := ← Json.required Json.float? low
      close := ← Json.required Json.float? close
      volume := ← Json.required Json.float? volume }
  | _ => failure

/-- Text that names its offset; a number is no time. -/
def Instant.ofJson? (v : Json) : Option Instant :=
  v.string?.bind fun s => Instant.readZoned? s.toList

def Candle.ofJson? (v : Json) : Option (Candle Float) := do
  match ← v.fields? ["open_time", "open", "high", "low", "close", "volume"] 0 with
  | [openTime, openPrice, high, low, close, volume] =>
    return {
      openTime := ← Json.required Instant.ofJson? openTime
      openPrice := ← Json.nullable Json.float? openPrice
      high := ← Json.nullable Json.float? high
      low := ← Json.nullable Json.float? low
      close := ← Json.nullable Json.float? close
      volume := ← Json.nullable Json.float? volume }
  | _ => failure

/-- The bare number of units. -/
def DollarSize.ofJson? (v : Json) : Option DollarSize := (Json.uint64? v).map (⟨·⟩)

namespace Trend

def fieldNames : List String :=
  ["sma1", "sma2", "sma3", "sma1_angle", "sma2_angle", "sma3_angle"]

def Snapshot.ofJson? (v : Json) : Option (Snapshot Float) := do
  match ← (← v.fields? fieldNames 0).mapM (Json.required Json.float?) with
  | [average1, average2, average3, angle1, angle2, angle3] =>
    return ⟨average1, average2, average3, angle1, angle2, angle3⟩
  | _ => failure

def Features.ofJson? (v : Json) : Option (Features Float) := do
  match ← (← v.fields? fieldNames 0).mapM (Json.required (Json.listOf? Json.float?)) with
  | [average1, average2, average3, angle1, angle2, angle3] =>
    return ⟨average1, average2, average3, angle1, angle2, angle3⟩
  | _ => failure

end Trend

end TradeBars
