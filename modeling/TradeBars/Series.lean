import TradeBars.Bar.Record
import TradeBars.Fault
import TradeBars.Ring

/-! A bounded series of bars, oldest first; the newest bar is the one still open. -/
namespace TradeBars

abbrev Series (α : Type) := Ring (Bar α)

/-- What became of a bar that may have been sent before. -/
inductive Upsert (α : Type) where
  /-- It took the place of the newest bar, which had the same timestamp. -/
  | replaced (previous : Bar α)
  /-- It is the newest bar now; a full series gave up its oldest one. -/
  | appended (evicted : Option (Bar α))
  /-- It is older than the newest bar and was not stored. -/
  | stale

namespace Series

variable {α : Type}

/-- An empty series. Its slots are allocated at once, if so many of them can be. -/
def ofCapacity (capacity : Nat) (allocates : Nat → Bool := fun _ => true) :
    Except Fault (Series α) :=
  if capacity = 0 then .error (.config .zeroCapacity)
  else if allocates capacity then .ok (Ring.empty capacity)
  else .error .allocation

/-- Stores a bar by its timestamp, as for bars that are sent again while they grow. -/
def upsert (s : Series α) (b : Bar α) : Upsert α × Series α :=
  match s.last? with
  | none =>
    let (evicted, s) := s.pushBack b
    (.appended evicted, s)
  | some newest =>
    if newest.timestamp < b.timestamp then
      let (evicted, s) := s.pushBack b
      (.appended evicted, s)
    else if b.timestamp = newest.timestamp then (.replaced newest, s.modifyLast fun _ => b)
    else (.stale, s)

def records (s : Series Float) : List Bar.Record := s.toList.map Bar.record

end Series

end TradeBars
