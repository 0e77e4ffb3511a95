import TradeBars.Decimal.Digits
import TradeBars.Time.Calendar

/-! Points in time with nanoseconds, in UTC. -/
namespace TradeBars

/-- Whole seconds since 1970-01-01, rounded towards the past, and the nanoseconds
after them. In a leap second, which shares the number of the second before it, the
nanoseconds are 1 000 000 000 or more. -/
structure Instant where
  seconds : Int
  nanos : Nat
  deriving DecidableEq, Repr

namespace Instant

/-- The seconds that the calendar covers, from the first year's start to the last one's end. -/
def firstSecond : Int := -8334601228800

def lastSecond : Int := 8210266876799

/-- The start of a second, if the calendar covers it. -/
def ofSeconds? (s : Int) : Option Instant :=
  if firstSecond ≤ s ∧ s ≤ lastSecond then some ⟨s, 0⟩ else none

/-- Earlier or equal. -/
def le (a b : Instant) : Bool :=
  a.seconds < b.seconds || (a.seconds == b.seconds && a.nanos ≤ b.nanos)

/-- The decimal text with leading zeros up to a width. -/
def padded (width n : Nat) : List Char :=
  let ds := Decimal.digits n
  List.replicate (width - ds.length) '0' ++ ds

/-- Four digits, or a sign and at least four. -/
def yearText (year : Int) : List Char :=
  if 0 ≤ year ∧ year ≤ 9999 then padded 4 year.natAbs
  else (if year < 0 then '-' else '+') :: padded 4 year.natAbs

/-- No fraction, or one of 3, 6 or 9 digits, the fewest that are exact. -/
def fractionText (nanos : Nat) : List Char :=
  if nanos = 0 then []
  else if nanos % 1000000 = 0 then '.' :: padded 3 (nanos / 1000000)
  else if nanos % 1000 = 0 then '.' :: padded 6 (nanos / 1000)
  else '.' :: padded 9 nanos

/-- The RFC 3339 text in UTC; a leap second is written as second 60. -/
def rfc3339 (t : Instant) : String :=
  let date := Time.Date.ofDays (t.seconds / 86400)
  let second := (t.seconds % 86400).toNat
  let leap := 1000000000 ≤ t.nanos
  String.ofList <|
    yearText date.year ++ '-' :: padded 2 date.month ++ '-' :: padded 2 date.day ++
      'T' :: padded 2 (second / 3600) ++ ':' :: padded 2 (second / 60 % 60) ++
      ':' :: padded 2 (second % 60 + if leap then 1 else 0) ++
      fractionText (if leap then t.nanos - 1000000000 else t.nanos) ++ ['Z']

end Instant

end TradeBars
