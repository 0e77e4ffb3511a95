import TradeBars.Scalar
import TradeBars.Time.Instant

/-! Candles: bars over time whose values may be missing. -/
namespace TradeBars

/-- The values of one stretch of time that starts at `openTime`. -/
structure Candle (α : Type) where
  openTime : Instant
  openPrice : Option α
  high : Option α
  low : Option α
  close : Option α
  volume : Option α

/-- Whether no price is there; a volume alone does not count. -/
def Candle.isEmpty {α : Type} (c : Candle α) : Bool :=
  c.openPrice.isNone && c.high.isNone && c.low.isNone && c.close.isNone

end TradeBars
