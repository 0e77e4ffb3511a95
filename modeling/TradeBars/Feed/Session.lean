import TradeBars.Backfill.Task
import TradeBars.Feed.Basic
import TradeBars.Timer

/-! A feed over time: a sender sends payloads in batches, and one backfill starts with
the first bar. What was sent is handled once the sender pauses, before the backfill goes
on. A pause of no length is none: the sender keeps its turn. -/
namespace TradeBars.Feed

/-- Payloads that are sent together, and the milliseconds until the next ones. Without
a pause they are sent together with those. -/
structure Batch where
  payloads : List Json
  pause : Option Nat

structure Session where
  feed : Feed
  /-- The source of a backfill, if there is to be one. -/
  backfill : Option (Backfill.Source Float × Config.Backfill)
  timer : Timer := .exact
  task : Option Backfill.Task := none
  now : Nat := 0
  /-- The payloads that were sent and not handled yet. -/
  sent : List Json := []
  /-- The timestamps of the bars at the end of each pause, newest first. -/
  snapshots : List (List Int) := []

namespace Session

/-- Handles one payload; the first bar that opens starts the backfill. -/
def handle (s : Session) (payload : Json) : Session :=
  let (update, feed) := s.feed.handle payload
  let starts := s.task.isNone && s.backfill.isSome && (update.map (·.opened)).getD false
  let task := if starts then some (.start feed.builder.capacity s.now) else s.task
  { s with feed, task }

/-- Handles what was sent. -/
def deliver (s : Session) : Session := s.sent.foldl handle { s with sent := [] }

/-- Lets the backfill go on through the waits that end before a time, or to its end. -/
def goOn (s : Session) (before : Option Nat) : Session :=
  match s.backfill, s.task with
  | some (source, config), some task =>
    let (task, builder) :=
      Backfill.Task.advance s.timer config source before task.mostWaits task s.feed.builder
    { s with task := some task, feed := { s.feed with builder } }
  | _, _ => s

/-- Notes the timestamps of the bars. -/
def look (s : Session) : Session :=
  { s with snapshots := s.feed.builder.bars.map (·.timestamp) :: s.snapshots }

/-- Passes a time in which the payloads are handled and the backfill goes on, and looks
at the bars. In no time nothing happens. -/
def wait (s : Session) (pause : Nat) : Session :=
  if pause = 0 then s.look
  else
    let ending := s.timer.ending s.now pause
    look { s.deliver.goOn (some ending) with now := ending }

def take (s : Session) (batch : Batch) : Session :=
  let s := { s with sent := s.sent ++ batch.payloads }
  match batch.pause with
  | some pause => s.wait pause
  | none => s

/-- After the last batch the backfill is waited for. -/
def close (s : Session) : Session :=
  let s := s.deliver.goOn none
  match s.task with
  | some task => { s with now := max s.now task.due }
  | none => s

def run (s : Session) (batches : List Batch) : Session := (batches.foldl take s).close

end Session

end TradeBars.Feed
