import TradeBars.Scalar

/-! Trades. Timestamps are whole seconds since 1970-01-01. -/
namespace TradeBars

/-- Who initiated a trade. -/
inductive Side where
  | buy
  | sell
  deriving DecidableEq, Repr

def Side.name : Side → String
  | .buy => "buy"
  | .sell => "sell"

structure Trade (α : Type) where
  timestamp : Int
  price : α
  /-- The quantity in the base asset. -/
  qty : α
  side : Side
  symbol : String

/-- The traded value in the quote currency. -/
def Trade.quote {α : Type} [Scalar α] (t : Trade α) : α := t.price * t.qty

/-- An archived trade, whose values may be missing. -/
structure TradeRow (α : Type) where
  timestamp : Int
  price : Option α
  qty : Option α

def Trade.row {α : Type} (t : Trade α) : TradeRow α := ⟨t.timestamp, some t.price, some t.qty⟩

/-- The price and the quantity of a row, if both are there and are numbers. -/
def TradeRow.values? {α : Type} [Scalar α] (r : TradeRow α) : Option (α × α) :=
  match Scalar.present r.price, Scalar.present r.qty with
  | some price, some qty => some (price, qty)
  | _, _ => none

end TradeBars
