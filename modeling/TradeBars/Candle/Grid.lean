/-! The grid of equal buckets that covers a stretch of time. It is aligned to midnight
UTC of the day on which the stretch begins, whatever the width of the buckets. -/
namespace TradeBars.Candle

/-- The last midnight that is not after a second. -/
def midnight (second : Int) : Int := second - second % 86400

/-- Buckets of `step` seconds, numbered from the origin: `count` of them from
`firstBucket` on. -/
structure Grid where
  origin : Int
  step : Int
  firstBucket : Int
  count : Nat
  deriving DecidableEq, Repr

namespace Grid

/-- The number of the bucket that holds a second. -/
def bucket (g : Grid) (second : Int) : Int := (second - g.origin) / g.step

/-- The first second of the `i`-th bucket of the grid. -/
def start (g : Grid) (i : Nat) : Int := g.origin + (g.firstBucket + i) * g.step

/-- The grid from the bucket of the first second to the one of the last. -/
def covering (step first last : Int) : Grid :=
  let origin := midnight first
  let firstBucket := (first - origin) / step
  let lastBucket := (last - origin) / step
  ⟨origin, step, firstBucket, (lastBucket - firstBucket + 1).toNat⟩

end Grid

end TradeBars.Candle
