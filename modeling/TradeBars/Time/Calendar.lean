/-! The proleptic Gregorian calendar. Years are numbered astronomically, with a
year zero, and days are counted from 1970-01-01. -/
namespace TradeBars.Time

structure Date where
  year : Int
  month : Nat
  day : Nat
  deriving DecidableEq, Repr

def isLeap (year : Int) : Bool := year % 4 == 0 && (year % 100 != 0 || year % 400 == 0)

/-- The days of a month in a leap year, or in another one. -/
def daysInMonth (leap : Bool) (month : Nat) : Nat :=
  match month with
  | 2 => if leap then 29 else 28
  | 4 | 6 | 9 | 11 => 30
  | _ => 31

/-- The days of a year before the first of the month. -/
def daysBeforeMonth (leap : Bool) (month : Nat) : Nat :=
  (List.range (month - 1)).foldl (fun days m => days + daysInMonth leap (m + 1)) 0

/-- The days from 0001-01-01 to the first of January. -/
def daysBeforeYear (year : Int) : Int :=
  let past := year - 1
  365 * past + past / 4 - past / 100 + past / 400

/-- The day 0001-01-01 lies this many days before 1970-01-01. -/
def epochDay : Int := 719162

/-- Dates outside these years are not represented. -/
def firstYear : Int := -262143

def lastYear : Int := 262142

def Date.valid (d : Date) : Bool :=
  firstYear ≤ d.year && d.year ≤ lastYear && 1 ≤ d.month && d.month ≤ 12 &&
    1 ≤ d.day && d.day ≤ daysInMonth (isLeap d.year) d.month

/-- The days from 1970-01-01, negative before it. -/
def Date.toDays (d : Date) : Int :=
  daysBeforeYear d.year + daysBeforeMonth (isLeap d.year) d.month + (d.day - 1) - epochDay

/-- The month of a day of the year that is counted from zero. -/
def monthOf (leap : Bool) (ordinal : Nat) : Nat :=
  ((List.range 12).filter fun m => daysBeforeMonth leap (m + 1) ≤ ordinal).length

/-- The year of a day that is counted from 0001-01-01. Centuries are counted within
a cycle of 400 years, and years within one of four; the last of each cycle has the
day more that would otherwise begin a fifth part, hence the bounds by 3. -/
def yearOf (day : Int) : Int :=
  let cycle := day / 146097
  let inCycle := day % 146097
  let century := min 3 (inCycle / 36524)
  let inCentury := inCycle - 36524 * century
  let quad := inCentury / 1461
  let single := min 3 ((inCentury - 1461 * quad) / 365)
  400 * cycle + 100 * century + 4 * quad + single + 1

/-- The date a number of days from 1970-01-01. -/
def Date.ofDays (days : Int) : Date :=
  let day := days + epochDay
  let year := yearOf day
  let ordinal := (day - daysBeforeYear year).toNat
  let month := monthOf (isLeap year) ordinal
  ⟨year, month, ordinal - daysBeforeMonth (isLeap year) month + 1⟩

/-- The length of a year, by its place in the count of days. -/
theorem daysBeforeYear_succ (year : Int) :
    daysBeforeYear (year + 1) = daysBeforeYear year + if isLeap year then 366 else 365 := by
  have leap : isLeap year = true ↔ year % 4 = 0 ∧ (year % 100 ≠ 0 ∨ year % 400 = 0) := by
    simp [isLeap]
  split
  · have := leap.mp ‹_›; simp only [daysBeforeYear]; omega
  · have := mt leap.mpr ‹_›; simp only [daysBeforeYear]; omega

end TradeBars.Time
