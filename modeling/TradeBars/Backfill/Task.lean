import TradeBars.Backfill.Cycle
import TradeBars.Backfill.Source
import TradeBars.Config.Basic
import TradeBars.Timer

/-! A backfill cycle against a source and a clock in milliseconds, which only waits
move on. -/
namespace TradeBars.Backfill

/-- A cycle at the time when its present wait ends. -/
structure Task where
  cycle : Cycle
  /-- When the wait ends, or when the cycle finished. -/
  due : Nat
  /-- The timestamps and limits of the fetches so far. -/
  calls : List (Int × Nat)

namespace Task

variable {α : Type}

def start (capacity now : Nat) : Task := ⟨.start capacity, now, []⟩

def isFinished (t : Task) : Bool :=
  match t.cycle.phase with
  | .finished _ => true
  | _ => false

/-- Looks at the builder, and begins the wait for a fetch if there is one. -/
def consult (t : Task) (timer : Timer) (config : Config.Backfill) (source : Source α)
    (b : Builder α) : Task :=
  let cycle := t.cycle.consult config.maxFetchLimit.toNat b
  match cycle.phase with
  | .fetching upTo limit =>
    ⟨cycle, timer.ending t.due source.delay, t.calls ++ [(upTo, limit)]⟩
  | _ => { t with cycle }

/-- Goes on at the end of the present wait, up to the next one. -/
def wake [Scalar α] (t : Task) (timer : Timer) (config : Config.Backfill) (source : Source α)
    (b : Builder α) : Task × Builder α :=
  match t.cycle.phase with
  | .reading => (t.consult timer config source b, b)
  | .fetching upTo limit =>
    let answer := source.answer (t.cycle.attempts - 1) upTo limit
    let (cycle, b) := t.cycle.receive answer b
    match answer with
    | some _ => ({ t with cycle }.consult timer config source b, b)
    | none => ({ t with cycle, due := timer.ending t.due config.retryDelay.toNat }, b)
  | .pausing => ({ t with cycle := t.cycle.resume }.consult timer config source b, b)
  | .finished _ => (t, b)

/-- As many waits as a cycle can have: one before its first look at the builder, and
for each attempt the fetch and a pause. -/
def mostWaits (t : Task) : Nat := 2 * t.cycle.budget + 1

/-- Goes on through the waits that end before a time, or through all of them. -/
def advance [Scalar α] (timer : Timer) (config : Config.Backfill) (source : Source α)
    (before : Option Nat) : Nat → Task → Builder α → Task × Builder α
  | 0, t, b => (t, b)
  | waits + 1, t, b =>
    let goesOn := !t.isFinished && match before with
      | some time => t.due < time
      | none => true
    if goesOn then
      let (t, b) := t.wake timer config source b
      advance timer config source before waits t b
    else (t, b)

/-- Runs a task to its end. -/
def complete [Scalar α] (t : Task) (timer : Timer) (config : Config.Backfill) (source : Source α)
    (b : Builder α) : Task × Builder α :=
  advance timer config source none t.mostWaits t b

end Task

/-- Runs a whole cycle on a builder that takes no trades meanwhile. -/
def fill {α : Type} [Scalar α] (config : Config.Backfill) (source : Source α) (b : Builder α)
    (timer : Timer := .exact) : Task × Builder α :=
  (Task.start b.capacity 0).complete timer config source b

end TradeBars.Backfill
