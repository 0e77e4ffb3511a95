import TradeBars.Trade

/-! Plain bars of prices and volume. -/
namespace TradeBars

structure Ohlcv (α : Type) where
  timestamp : Int
  openPrice : α
  high : α
  low : α
  close : α
  volume : α

end TradeBars
