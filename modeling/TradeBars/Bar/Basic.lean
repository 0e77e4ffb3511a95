import TradeBars.Trade

/-! Bars of consecutive trades. -/
namespace TradeBars

structure Bar (α : Type) where
  /-- The timestamp of the first trade. -/
  timestamp : Int
  openPrice : α
  high : α
  low : α
  close : α
  /-- Traded quantity, and traded value. -/
  volume : α
  quoteVolume : α
  tradeCount : UInt32
  /-- The parts of the two volumes that buyers initiated. -/
  takerBuyVolume : α
  takerBuyQuote : α

namespace Bar

variable {α : Type} [Scalar α]

/-- The bar of one trade. -/
def ofTrade (t : Trade α) : Bar α where
  timestamp := t.timestamp
  openPrice := t.price
  high := t.price
  low := t.price
  close := t.price
  volume := t.qty
  quoteVolume := t.quote
  tradeCount := 1
  takerBuyVolume := if t.side = .buy then t.qty else 0
  takerBuyQuote := if t.side = .buy then t.quote else 0

/-- The bar with one more trade. -/
def add (b : Bar α) (t : Trade α) : Bar α :=
  { b with
    high := Scalar.larger b.high t.price
    low := Scalar.smaller b.low t.price
    close := t.price
    volume := b.volume + t.qty
    quoteVolume := b.quoteVolume + t.quote
    tradeCount := b.tradeCount + 1
    takerBuyVolume := if t.side = .buy then b.takerBuyVolume + t.qty else b.takerBuyVolume
    takerBuyQuote := if t.side = .buy then b.takerBuyQuote + t.quote else b.takerBuyQuote }

/-- Prices and volume are finite and in order, and there is at least one trade. -/
def isConsistent (b : Bar α) : Bool :=
  [b.openPrice, b.high, b.low, b.close, b.volume].all Scalar.isFinite &&
    Scalar.le b.low (Scalar.smaller b.openPrice b.close) &&
    Scalar.le (Scalar.larger b.openPrice b.close) b.high &&
    1 ≤ b.tradeCount && Scalar.le 0 b.volume

end Bar

end TradeBars
