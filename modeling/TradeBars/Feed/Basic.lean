import TradeBars.Builder
import TradeBars.Config.Basic
import TradeBars.Payload

/-! A live feed: raw payloads go in one by one, and what cannot be read as a trade
is counted and skipped. -/
namespace TradeBars

namespace Feed

structure Stats where
  received : Nat := 0
  accepted : Nat := 0
  rejected : Nat := 0
  opened : Nat := 0
  closed : Nat := 0
  deriving DecidableEq, Repr

/-- The rejected part of what was received, zero before anything was. -/
def Stats.rejectionRate (s : Stats) : Float :=
  if s.received = 0 then 0 else Binary64.ofInt s.rejected / Binary64.ofInt s.received

end Feed

structure Feed where
  builder : Builder Float
  aliases : Aliases
  stats : Feed.Stats := {}

namespace Feed

def ofConfig (config : Config) (allocates : Nat → Bool := fun _ => true) : Except Fault Feed := do
  let config ← config.validated
  let builder ← Builder.new config.tickBars.maxRecords.toNat config.tickBars.tickSize allocates
  return { builder, aliases := config.aliases }

/-- Takes one payload; there is no update if it is rejected. -/
def handle (f : Feed) (payload : Json) : Option Update × Feed :=
  let stats := { f.stats with received := f.stats.received + 1 }
  match Payload.trade f.aliases payload with
  | .error _ => (none, { f with stats := { stats with rejected := stats.rejected + 1 } })
  | .ok trade =>
    let (update, builder) := f.builder.addTrade trade
    (some update, { f with
      builder
      stats := { stats with
        accepted := stats.accepted + 1
        opened := stats.opened + if update.opened then 1 else 0
        closed := stats.closed + if update.closed then 1 else 0 } })

end Feed

end TradeBars
