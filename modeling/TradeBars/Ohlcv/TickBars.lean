import TradeBars.Fault
import TradeBars.Ohlcv.Basic
import TradeBars.TimeOrder

/-! Tick bars of archived trades: groups of a fixed number of them. -/
namespace TradeBars.Ohlcv

/-- The consecutive groups of exactly `n` elements; a shorter rest is dropped. -/
def groups {β : Type} (n : Nat) (xs : List β) : List (List β) :=
  if n = 0 ∨ xs.length < n then [] else xs.take n :: groups n (xs.drop n)
termination_by xs.length
decreasing_by
  rename_i enough
  simp only [not_or, Nat.not_lt] at enough
  simp only [List.length_drop]
  omega

/-- A row with both of its values. -/
structure Print (α : Type) where
  timestamp : Int
  price : α
  qty : α

variable {α : Type} [Scalar α]

def Print.ofRow? (r : TradeRow α) : Option (Print α) :=
  r.values?.map fun (price, qty) => ⟨r.timestamp, price, qty⟩

/-- The bar of a group, with the timestamp of its last trade; a bar needs a trade. -/
def ofGroup? : List (Print α) → Option (Ohlcv α)
  | [] => none
  | first :: rest =>
    let last := rest.getLast?.getD first
    some {
      timestamp := last.timestamp
      openPrice := first.price
      high := (rest.map (·.price)).foldl Scalar.larger first.price
      low := (rest.map (·.price)).foldl Scalar.smaller first.price
      close := last.price
      volume := Scalar.sum ((first :: rest).map (·.qty)) }

/-- The bars of `size` trades each. Rows with a missing value do not count. -/
def tickBars (rows : List (TradeRow α)) (size : Nat) : Except Fault (List (Ohlcv α)) :=
  if size = 0 then .error (.config .zeroGroup)
  else
    let prints := inTimeOrder (·.timestamp) (rows.filterMap Print.ofRow?)
    .ok ((groups size prints).filterMap ofGroup?)

end TradeBars.Ohlcv
