import Mathlib.Data.Int.Init
import Mathlib.Order.Monotone.Basic
import TradeBars.Time.Calendar

/-! The calendar day by day. It names the days one after another, from the first of January 1970 on
in both directions. Main statements: it names every day, and the count of days that is computed
from a date is the place of the date in the calendar. -/
namespace TradeBars.Time

namespace Date

/-- The date of the next day. -/
def next (d : Date) : Date :=
  if d.day < daysInMonth (isLeap d.year) d.month then { d with day := d.day + 1 }
  else if d.month < 12 then ⟨d.year, d.month + 1, 1⟩
  else ⟨d.year + 1, 1, 1⟩

/-- A date of some year, with no bound on the year. -/
structure Proper (d : Date) : Prop where
  month : 1 ≤ d.month ∧ d.month ≤ 12
  day : 1 ≤ d.day ∧ d.day ≤ daysInMonth (isLeap d.year) d.month

end Date

/-- The date of each day, where the days are counted from 1970-01-01. -/
inductive Gregorian : Int → Date → Prop where
  | epoch : Gregorian 0 ⟨1970, 1, 1⟩
  | next {day : Int} {d : Date} : Gregorian day d → Gregorian (day + 1) d.next
  | previous {day : Int} {d : Date} : d.Proper → Gregorian (day + 1) d.next → Gregorian day d

theorem daysBeforeYear_mono {year later : Int} (order : year ≤ later) :
    daysBeforeYear year ≤ daysBeforeYear later := by
  refine monotone_int_of_le_succ (fun year => ?_) order
  rw [daysBeforeYear_succ]
  split <;> omega

section Months

theorem daysInMonth_bounds (leap : Bool) (month : Nat) :
    28 ≤ daysInMonth leap month ∧ daysInMonth leap month ≤ 31 := by
  unfold daysInMonth
  split
  · split <;> decide
  all_goals decide

theorem daysBeforeMonth_succ (leap : Bool) {month : Nat} (positive : 1 ≤ month) :
    daysBeforeMonth leap (month + 1) = daysBeforeMonth leap month + daysInMonth leap month := by
  obtain ⟨m, rfl⟩ := Nat.exists_eq_add_of_le' positive
  simp [daysBeforeMonth, List.range_succ]

/-- After its last month a year is over. -/
theorem daysBeforeMonth_last (leap : Bool) :
    daysBeforeMonth leap 12 + 31 = if leap then 366 else 365 := by
  cases leap <;> rfl

end Months

namespace Date.Proper

variable {d : Date} (proper : d.Proper)
include proper

theorem next : d.next.Proper := by
  obtain ⟨month, day⟩ := proper
  unfold Date.next
  split
  · next inMonth => exact ⟨month, ⟨Nat.le_add_left 1 _, inMonth⟩⟩
  · split
    · next inYear =>
      have anyDay := (daysInMonth_bounds (isLeap d.year) (d.month + 1)).1
      exact ⟨⟨Nat.le_add_left 1 _, inYear⟩, Nat.le_refl 1, Nat.le_of_add_left_le anyDay⟩
    · exact ⟨⟨Nat.le_refl 1, Nat.le_add_left 1 11⟩, Nat.le_refl 1, Nat.le_add_left 1 30⟩

theorem toDays_next : d.next.toDays = d.toDays + 1 := by
  obtain ⟨month, day⟩ := proper
  unfold Date.next
  split
  · simp only [toDays]
    omega
  · have last : d.day = daysInMonth (isLeap d.year) d.month := by omega
    split
    · have before := daysBeforeMonth_succ (isLeap d.year) month.1
      simp only [toDays, before]
      omega
    · have december : d.month = 12 := by omega
      rw [december] at last
      have before := daysBeforeYear_succ d.year
      have whole := daysBeforeMonth_last (isLeap d.year)
      have january : daysBeforeMonth (isLeap (d.year + 1)) 1 = 0 := rfl
      have thirtyOne : daysInMonth (isLeap d.year) 12 = 31 := rfl
      simp only [toDays, before, december, last, january]
      split at whole
      · next leap =>
        rw [if_pos leap]
        omega
      · next short =>
        rw [if_neg short]
        omega

/-- The day before the first of a month is the last one of another month. -/
theorem exists_previous : ∃ p : Date, p.Proper ∧ p.next = d := by
  obtain ⟨year, month, day⟩ := d
  obtain ⟨inYear, inMonth⟩ := proper
  dsimp only at inYear inMonth
  have anyDay := (daysInMonth_bounds (isLeap year) (month - 1)).1
  by_cases first : day = 1
  · subst first
    by_cases january : month = 1
    · subst january
      refine ⟨⟨year - 1, 12, 31⟩, ⟨by simp, by simp [daysInMonth]⟩, ?_⟩
      simp [Date.next, daysInMonth]
    · refine ⟨⟨year, month - 1, daysInMonth (isLeap year) (month - 1)⟩,
        ⟨by dsimp only; omega, by dsimp only; omega⟩, ?_⟩
      have before : month - 1 < 12 := by omega
      have after : month - 1 + 1 = month := by omega
      simp [Date.next, before, after]
  · refine ⟨⟨year, month, day - 1⟩, ⟨inYear, by dsimp only; omega⟩, ?_⟩
    have before : day - 1 < daysInMonth (isLeap year) month := by omega
    have after : day - 1 + 1 = day := by omega
    simp [Date.next, before, after]

/-- A date lies in its year. -/
theorem toDays_bounds : daysBeforeYear d.year ≤ d.toDays + epochDay ∧
    d.toDays + epochDay < daysBeforeYear (d.year + 1) := by
  have inYear : ∀ leap : Bool, ∀ month < 13, 1 ≤ month →
      daysBeforeMonth leap month + daysInMonth leap month ≤ if leap then 366 else 365 := by
    decide +kernel
  obtain ⟨month, day⟩ := proper
  have most := inYear (isLeap d.year) d.month (by omega) month.1
  rw [daysBeforeYear_succ]
  simp only [toDays]
  constructor
  · omega
  · split at most
    · next leap =>
      rw [if_pos leap]
      omega
    · next short =>
      rw [if_neg short]
      omega

end Date.Proper

theorem Gregorian.proper {day : Int} {d : Date} (named : Gregorian day d) : d.Proper := by
  induction named with
  | epoch => exact ⟨by decide, by decide⟩
  | next _ ih => exact ih.next
  | previous proper => exact proper

/-- The count of days that is computed for a date of the calendar is its place there. -/
theorem Gregorian.toDays_eq {day : Int} {d : Date} (named : Gregorian day d) : d.toDays = day := by
  induction named with
  | epoch => decide
  | next named ih => rw [named.proper.toDays_next, ih]
  | previous proper _ ih =>
    rw [proper.toDays_next] at ih
    omega

/-- The days of the years that have four digits. -/
theorem Gregorian.day_bounds {day : Int} {d : Date} (named : Gregorian day d)
    (years : 0 ≤ d.year ∧ d.year ≤ 9999) : -719528 ≤ day ∧ day ≤ 2932896 := by
  obtain ⟨low, high⟩ := named.proper.toDays_bounds
  rw [named.toDays_eq] at low high
  simp only [daysBeforeYear, epochDay] at low high
  omega

theorem exists_gregorian (day : Int) : ∃ d, Gregorian day d := by
  induction day using Int.induction_on with
  | zero => exact ⟨_, .epoch⟩
  | succ day ih =>
    obtain ⟨d, named⟩ := ih
    exact ⟨_, named.next⟩
  | pred day ih =>
    obtain ⟨d, named⟩ := ih
    obtain ⟨p, proper, rfl⟩ := named.proper.exists_previous
    exact ⟨p, .previous proper (by rwa [Int.sub_add_cancel])⟩

/-- Years do not overlap, nor do the months of a year. -/
theorem Date.Proper.eq_of_toDays_eq {d e : Date} (hd : d.Proper) (he : e.Proper)
    (same : d.toDays = e.toDays) : d = e := by
  have apart : ∀ leap : Bool, ∀ m < 13, 1 ≤ m → ∀ n < 13, m < n →
      daysBeforeMonth leap m + daysInMonth leap m ≤ daysBeforeMonth leap n := by
    decide +kernel
  have year : d.year = e.year := by
    have dBounds := hd.toDays_bounds
    have eBounds := he.toDays_bounds
    obtain less | same | less := Int.lt_trichotomy d.year e.year
    · have := daysBeforeYear_mono (Int.add_one_le_of_lt less)
      omega
    · exact same
    · have := daysBeforeYear_mono (Int.add_one_le_of_lt less)
      omega
  obtain ⟨y, month, day⟩ := d
  obtain ⟨y', month', day'⟩ := e
  obtain rfl : y = y' := year
  obtain ⟨dMonth, dDay⟩ := hd
  obtain ⟨eMonth, eDay⟩ := he
  simp only [toDays] at same dMonth dDay eMonth eDay
  obtain less | rfl | less := Nat.lt_trichotomy month month'
  · have := apart (isLeap y) month (by omega) dMonth.1 month' (by omega) less
    omega
  · congr 1
    omega
  · have := apart (isLeap y) month' (by omega) eMonth.1 month (by omega) less
    omega

theorem existsUnique_gregorian (day : Int) : ∃! d, Gregorian day d := by
  obtain ⟨d, named⟩ := exists_gregorian day
  refine ⟨d, named, fun e other => ?_⟩
  exact other.proper.eq_of_toDays_eq named.proper (other.toDays_eq.trans named.toDays_eq.symm)

end TradeBars.Time
