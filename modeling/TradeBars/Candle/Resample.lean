import TradeBars.Candle.Basic
import TradeBars.Candle.Grid
import TradeBars.Interval

/-! Resampling candles into wider buckets. Each bucket between the first and the last
candle gives a candle, with or without data. It takes in the candles of its bucket one by
one; a value that is missing is left out and never filled in from before. -/
namespace TradeBars.Candle

variable {α : Type}

/-- A candle without data. -/
def blank (openTime : Instant) : Candle α := ⟨openTime, none, none, none, none, none⟩

/-- Takes one more candle into the candle of a bucket. Its values do not come before those that
were taken in, and one that is missing or not a number leaves the bucket as it is. -/
def add [Scalar α] (bar c : Candle α) : Candle α where
  openTime := bar.openTime
  openPrice := bar.openPrice.or (Scalar.present c.openPrice)
  high := bar.high.merge Scalar.larger (Scalar.present c.high)
  low := bar.low.merge Scalar.smaller (Scalar.present c.low)
  close := (Scalar.present c.close).or bar.close
  volume :=
    match Scalar.present c.volume with
    | some volume => some (bar.volume.getD 0 + volume)
    | none => bar.volume

/-- One candle for several in the order of time. -/
def summary [Scalar α] (openTime : Instant) (cs : List (Candle α)) : Candle α :=
  cs.foldl add (blank openTime)

/-- Candles by their time; those of one instant stay in their order. -/
def inOrder (cs : List (Candle α)) : List (Candle α) :=
  cs.mergeSort fun a b => a.openTime.le b.openTime

/-- Cuts candles in the order of time into `count` buckets, numbered from `number` on. -/
def Grid.cut (g : Grid) (number : Int) : Nat → List (Candle α) → List (List (Candle α))
  | 0, _ => []
  | count + 1, cs =>
    let inside (c : Candle α) : Bool := g.bucket c.openTime.seconds == number
    cs.takeWhile inside :: g.cut (number + 1) count (cs.dropWhile inside)

/-- The times at which the buckets of a grid start. -/
def Grid.starts (g : Grid) : Except Fault (List Instant) :=
  (List.range g.count).mapM fun i =>
    match Instant.ofSeconds? (g.start i) with
    | some t => .ok t
    | none => .error (.outOfRange (g.start i))

/-- Resamples candles in any order. -/
def resample [Scalar α] (cs : List (Candle α)) (interval : String) :
    Except Fault (List (Candle α)) := do
  let interval ← Interval.read interval
  match inOrder cs with
  | [] => return []
  | first :: rest =>
    let last := rest.getLast?.getD first
    let grid := Grid.covering interval.seconds first.openTime.seconds last.openTime.seconds
    return List.zipWith summary (← grid.starts) (grid.cut grid.firstBucket grid.count (first :: rest))

end TradeBars.Candle
