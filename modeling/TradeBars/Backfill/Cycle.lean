import TradeBars.Builder
import TradeBars.TimeOrder

/-! One backfill cycle, as the steps it takes on a builder that it shares with live
trades. The builder is looked at before a fetch and written to after it; in between,
and during a pause, trades may go in. -/
namespace TradeBars.Backfill

inductive Outcome where
  /-- The series is full. -/
  | complete (inserted attempts : Nat)
  /-- The attempts ran out first. -/
  | exhausted (inserted attempts : Nat)
  /-- There was no bar to start from. -/
  | nothingToAnchor
  deriving DecidableEq, Repr

/-- What the cycle does next, or waits for. -/
inductive Phase where
  | reading
  | fetching (upTo : Int) (limit : Nat)
  | pausing
  | finished (outcome : Outcome)
  deriving DecidableEq, Repr

structure Cycle where
  /-- The number of fetches that are allowed. -/
  budget : Nat
  attempts : Nat
  inserted : Nat
  phase : Phase
  deriving DecidableEq, Repr

def attemptBudget (capacity : Nat) : Nat := capacity / 1000 + 1

namespace Cycle

variable {α : Type}

def start (capacity : Nat) : Cycle := ⟨attemptBudget capacity, 0, 0, .reading⟩

def finish (c : Cycle) (outcome : Outcome) : Cycle := { c with phase := .finished outcome }

/-- Looks at the builder, and finishes or asks for bars up to the oldest one. The
source has the oldest bar too, so one more is asked for than is missing. -/
def consult (c : Cycle) (maxFetchLimit : Nat) (b : Builder α) : Cycle :=
  match b.oldest? with
  | none => c.finish .nothingToAnchor
  | some oldest =>
    if b.missing = 0 then c.finish (.complete c.inserted c.attempts)
    else if c.budget ≤ c.attempts then c.finish (.exhausted c.inserted c.attempts)
    else
      { c with
        attempts := c.attempts + 1
        phase := .fetching oldest (min maxFetchLimit (b.missing + 1)) }

/-- Takes the answer to a fetch: bars, in any order, go in at the old end; a failure
leads to a pause. -/
def receive [Scalar α] (c : Cycle) (answer : Option (List (Bar α))) (b : Builder α) :
    Cycle × Builder α :=
  match answer with
  | some bars =>
    let (count, b) := b.prepend (inTimeOrder (·.timestamp) bars)
    ({ c with inserted := c.inserted + count, phase := .reading }, b)
  | none => ({ c with phase := .pausing }, b)

/-- Ends a pause. -/
def resume (c : Cycle) : Cycle := { c with phase := .reading }

end Cycle

end TradeBars.Backfill
