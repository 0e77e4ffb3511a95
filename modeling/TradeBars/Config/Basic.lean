import TradeBars.Aliases
import TradeBars.DollarSize

/-! Settings, in sections that each have a default. -/
namespace TradeBars.Config

structure Instrument where
  symbol : String := "BTC-USDT"
  exchange : String := "binance_perpetual"
  deriving DecidableEq, Repr

structure TickBars where
  /-- Trades per bar. -/
  tickSize : UInt32 := 500
  /-- The capacity of the series. -/
  maxRecords : UInt64 := 150
  deriving DecidableEq, Repr

structure DollarBars where
  dollarSize : String := "100k"
  deriving DecidableEq, Repr

structure Backfill where
  /-- The pause after a failed fetch, in milliseconds. -/
  retryDelay : UInt64 := 1000
  /-- The most bars that one fetch asks for. -/
  maxFetchLimit : UInt64 := 1000
  deriving DecidableEq, Repr

/-- The lengths of three moving averages, and of the window for their angles. -/
structure TrendAngle where
  average1 : UInt64 := 25
  average2 : UInt64 := 50
  average3 : UInt64 := 100
  angle : UInt64 := 3
  deriving DecidableEq, Repr

/-- As many bars are not enough yet; one more is. The product is one of words, and wraps around. -/
def TrendAngle.minBars (t : TrendAngle) : Nat :=
  (max (max t.average1 t.average2) t.average3 * t.angle).toNat

/-- The first fault of the lengths, if there is one. -/
def TrendAngle.fault? (t : TrendAngle) : Option Misconfiguration :=
  if t.angle < 3 then some .shortAngle
  else if t.average1 < 2 then some (.shortAverage 1)
  else if t.average2 < 2 then some (.shortAverage 2)
  else if t.average3 < 2 then some (.shortAverage 3)
  else none

end TradeBars.Config

namespace TradeBars

structure Config where
  instrument : Config.Instrument := {}
  tickBars : Config.TickBars := {}
  dollarBars : Config.DollarBars := {}
  backfill : Config.Backfill := {}
  trendAngle : Config.TrendAngle := {}
  aliases : Aliases := .binance
  deriving DecidableEq, Repr

namespace Config

/-- The first fault of the settings, if there is one. -/
def fault? (c : Config) : Option Misconfiguration :=
  if c.tickBars.tickSize = 0 then some .zeroTickSize
  else if c.tickBars.maxRecords = 0 then some .zeroMaxRecords
  else if c.backfill.maxFetchLimit = 0 then some .zeroFetchLimit
  else
    match c.trendAngle.fault? with
    | some fault => some fault
    | none =>
      match DollarSize.parse? c.dollarBars.dollarSize.toList with
      | some _ => none
      | none => some (.dollarSize c.dollarBars.dollarSize)

/-- The settings themselves, if no fault is found in them. -/
def validated (c : Config) : Except Fault Config :=
  match c.fault? with
  | some fault => .error (.config fault)
  | none => .ok c

end Config

end TradeBars
