import TradeBars.Bar.Basic

/-! Where bars of the past come from. -/
namespace TradeBars.Backfill

/-- A source answers its calls, which are numbered from zero, after a fixed time in
milliseconds: with bars up to a timestamp, as it sees fit, or not at all. -/
structure Source (α : Type) where
  delay : Nat
  answer : (call : Nat) → (upTo : Int) → (limit : Nat) → Option (List (Bar α))

namespace Source

variable {α : Type}

/-- A source whose answers are fixed one by one; after the last one it has no bars. -/
def scripted (delay : Nat) (answers : List (Option (List (Bar α)))) : Source α where
  delay
  answer call _ _ := answers[call]?.getD (some [])

/-- The last `limit` bars of a history up to a timestamp. -/
def newest (history : List (Bar α)) (upTo : Int) (limit : Nat) : List (Bar α) :=
  let eligible := history.filter fun b => b.timestamp ≤ upTo
  eligible.drop (eligible.length - limit)

/-- A source that fails at first and then serves a history. -/
def ofHistory (delay failures : Nat) (history : List (Bar α)) : Source α where
  delay
  answer call upTo limit := if call < failures then none else some (newest history upTo limit)

end Source

end TradeBars.Backfill
