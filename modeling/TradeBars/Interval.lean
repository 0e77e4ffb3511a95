import TradeBars.Fault
import TradeBars.Text.Blank

/-! Widths of resampling buckets, written as a count and a unit of time. -/
namespace TradeBars

/-- A positive number of seconds that fits in 63 bits. -/
structure Interval where
  seconds : Int
  positive : 0 < seconds
  bounded : seconds < 0x8000000000000000
  deriving DecidableEq, Repr

namespace Interval

def ofSeconds? (seconds : Int) : Option Interval :=
  if h : 0 < seconds ∧ seconds < 0x8000000000000000 then some ⟨seconds, h.1, h.2⟩ else none

/-- An interval of so many seconds; a refused number is reported with the unit of seconds. -/
def ofSeconds (seconds : Int) : Except Fault Interval :=
  match ofSeconds? seconds with
  | some i => .ok i
  | none => .error (.interval (String.ofList (Decimal.ofInt seconds ++ ['s'])))

/-- The seconds of a unit, by its exact spelling. -/
def unitSeconds? (unit : List Char) : Option Nat :=
  if unit = ['s'] ∨ unit = ['S'] then some 1
  else if unit = ['m'] ∨ unit = ['m', 'i', 'n'] ∨ unit = ['T'] then some 60
  else if unit = ['h'] ∨ unit = ['H'] then some 3600
  else if unit = ['d'] ∨ unit = ['D'] then some 86400
  else none

/-- Digits directly followed by a unit, without regard to blanks around them. -/
def parse? (cs : List Char) : Option Interval :=
  let cs := Text.strip cs
  let count := cs.takeWhile Char.isDigit
  match unitSeconds? (cs.dropWhile Char.isDigit) with
  | some unit => if count.isEmpty then none else ofSeconds? (Decimal.value count * unit : Nat)
  | none => none

def read (text : String) : Except Fault Interval :=
  match parse? text.toList with
  | some i => .ok i
  | none => .error (.interval text)

end Interval

end TradeBars
