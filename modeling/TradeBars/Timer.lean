/-! Waits on a clock in milliseconds that nothing else moves on. -/
namespace TradeBars

/-- What decides when a wait is over. -/
structure Timer where
  /-- When a wait ends that begins at `start` and is asked to last for `duration`. -/
  ending (start duration : Nat) : Nat

/-- Waits that last exactly as long as they are asked to. -/
def Timer.exact : Timer where
  ending start duration := start + duration

end TradeBars
