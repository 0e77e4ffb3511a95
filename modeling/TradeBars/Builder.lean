import TradeBars.Series

/-! Bars of a fixed number of trades, built one trade at a time. The newest bar
takes trades until it has as many as the threshold; history goes in at the old end. -/
namespace TradeBars

structure Builder (α : Type) where
  series : Series α
  /-- Trades per bar. -/
  threshold : UInt32

/-- What one trade did. -/
structure Update where
  /-- The index of the bar that took the trade. -/
  index : Nat
  opened : Bool
  closed : Bool
  deriving DecidableEq, Repr

namespace Builder

variable {α : Type}

def new (capacity : Nat) (threshold : UInt32) (allocates : Nat → Bool := fun _ => true) :
    Except Fault (Builder α) :=
  if threshold = 0 then .error (.config .zeroThreshold)
  else (Series.ofCapacity capacity allocates).map (⟨·, threshold⟩)

def capacity (b : Builder α) : Nat := b.series.capacity

def bars (b : Builder α) : List (Bar α) := b.series.toList

/-- The timestamp of the oldest bar. -/
def oldest? (b : Builder α) : Option Int := b.series.first?.map (·.timestamp)

/-- The bars that still fit before a new one evicts the oldest. -/
def missing (b : Builder α) : Nat := b.series.remaining

def clear (b : Builder α) : Builder α := { b with series := b.series.clear }

/-- Whether the newest bar still takes trades. -/
def isOpen (b : Builder α) : Bool :=
  match b.series.last? with
  | some bar => bar.tradeCount < b.threshold
  | none => false

/-- Whether the newest bar has all its trades. -/
def isClosed (b : Builder α) : Bool :=
  match b.series.last? with
  | some bar => b.threshold ≤ bar.tradeCount
  | none => false

variable [Scalar α]

def addTrade (b : Builder α) (t : Trade α) : Update × Builder α :=
  let extend := b.isOpen
  let series :=
    if extend then b.series.modifyLast (·.add t) else (b.series.pushBack (.ofTrade t)).2
  let after : Builder α := { b with series }
  (⟨series.lastIndex?.getD 0, !extend, after.isClosed⟩, after)

def addTrades (b : Builder α) (ts : List (Trade α)) : Builder α :=
  ts.foldl (fun b t => (b.addTrade t).2) b

/-- Puts bars before the oldest one, as given, until the series is full; the number
of bars that went in. -/
def prependAll (b : Builder α) : List (Bar α) → Nat × Builder α
  | [] => (0, b)
  | bar :: older =>
    match b.series.pushFront? bar with
    | some series =>
      let (count, b) := prependAll { b with series } older
      (count + 1, b)
    | none => (0, b)

/-- Puts history before the oldest bar, for a list that runs from old to new. Only
consistent bars that are older than the oldest bar go in, the newest of them first,
as far as there is room. The number of bars that went in comes with the result. -/
def prepend (b : Builder α) (history : List (Bar α)) : Nat × Builder α :=
  match b.oldest? with
  | some oldest =>
    b.prependAll (history.reverse.filter fun bar => bar.timestamp < oldest && bar.isConsistent)
  | none => (0, b)

end Builder

end TradeBars
