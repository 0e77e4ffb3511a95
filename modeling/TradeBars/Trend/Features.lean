import TradeBars.Bar.Basic
import TradeBars.Config.Basic
import TradeBars.Trend.Angle

/-! Three moving averages of the closes and the angles of each, over a list of bars. -/
namespace TradeBars.Trend

/-- Six series, all as long as the list of bars. -/
structure Features (α : Type) where
  average1 : List α
  average2 : List α
  average3 : List α
  angle1 : List α
  angle2 : List α
  angle3 : List α

/-- The values of the six series at one bar. -/
structure Snapshot (α : Type) where
  average1 : α
  average2 : α
  average3 : α
  angle1 : α
  angle2 : α
  angle3 : α

variable {α : Type}

def Features.size (f : Features α) : Nat := f.average1.length

def Features.isEmpty (f : Features α) : Bool := f.average1.isEmpty

/-- The values at the newest bar. -/
def Features.latest? (f : Features α) : Option (Snapshot α) := do
  return {
    average1 := ← f.average1.getLast?
    average2 := ← f.average2[f.size - 1]?
    average3 := ← f.average3[f.size - 1]?
    angle1 := ← f.angle1[f.size - 1]?
    angle2 := ← f.angle2[f.size - 1]?
    angle3 := ← f.angle3[f.size - 1]? }

/-- The features of bars, oldest first, once there are more bars than the settings
ask for. -/
def features [Angular α] (bars : List (Bar α)) (config : Config.TrendAngle) :
    Except Fault (Option (Features α)) := do
  if let some fault := config.fault? then .error (.config fault)
  if bars.length ≤ config.minBars then return none
  let window ← Window.new config.angle.toNat
  let closes := bars.map (·.close)
  let average1 := movingAverage closes config.average1.toNat
  let average2 := movingAverage closes config.average2.toNat
  let average3 := movingAverage closes config.average3.toNat
  return some {
    average1, average2, average3
    angle1 := window.angles average1
    angle2 := window.angles average2
    angle3 := window.angles average3 }

end TradeBars.Trend
