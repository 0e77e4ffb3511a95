import TradeBars.DollarSize
import TradeBars.Ohlcv.Basic
import TradeBars.TimeOrder

/-! Dollar bars: a bar closes once the value traded since the last one has reached
the dollar size. Its high and low are those of its open and close alone. -/
namespace TradeBars.Ohlcv

/-- One entry of a run: a trade, or a bar over time. -/
structure Entry (α : Type) where
  timestamp : Int
  openPrice : α
  close : α
  /-- The traded value in the quote currency. -/
  value : α
  volume : α

/-- What a run has gathered so far. -/
structure Run (α : Type) where
  openPrice : α
  value : α
  volume : α

variable {α : Type} [Scalar α]

def Run.empty : Run α := ⟨0, 0, 0⟩

/-- Adds an entry. A run of no value takes the entry's open for its own; a run
goes on while its value is below the threshold, and a value that is not a number is
not below it. -/
def Run.push (r : Run α) (threshold : α) (e : Entry α) : Option (Ohlcv α) × Run α :=
  let openPrice := if Scalar.eq r.value 0 then e.openPrice else r.openPrice
  let value := r.value + e.value
  let volume := r.volume + e.volume
  if Scalar.lt value threshold then (none, ⟨openPrice, value, volume⟩)
  else
    (some {
      timestamp := e.timestamp
      openPrice
      high := Scalar.larger openPrice e.close
      low := Scalar.smaller openPrice e.close
      close := e.close
      volume }, .empty)

/-- The bars that close in a list of entries; the run left over gives none. -/
def Run.bars (threshold : α) : Run α → List (Entry α) → List (Ohlcv α)
  | _, [] => []
  | r, e :: es =>
    match r.push threshold e with
    | (some bar, r) => bar :: Run.bars threshold r es
    | (none, r) => Run.bars threshold r es

/-- The entry of a row, unless one of its values is missing. -/
def Entry.ofRow? (r : TradeRow α) : Option (Entry α) :=
  r.values?.map fun (price, qty) => ⟨r.timestamp, price, price, price * qty, qty⟩

/-- A bar over time counts with its close times its volume. -/
def Entry.ofBar (b : Ohlcv α) : Entry α :=
  ⟨b.timestamp, b.openPrice, b.close, b.close * b.volume, b.volume⟩

/-- The dollar bars of archived trades. -/
def dollarBarsOfRows (rows : List (TradeRow α)) (size : String) :
    Except Fault (List (Ohlcv α)) := do
  let size ← DollarSize.read size
  return Run.bars size.value .empty ((inTimeOrder (·.timestamp) rows).filterMap Entry.ofRow?)

/-- The dollar bars of bars over time. -/
def dollarBarsOfBars (bars : List (Ohlcv α)) (size : String) :
    Except Fault (List (Ohlcv α)) := do
  let size ← DollarSize.read size
  return Run.bars size.value .empty ((inTimeOrder (·.timestamp) bars).map Entry.ofBar)

end TradeBars.Ohlcv
