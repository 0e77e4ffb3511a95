import TradeBars.Text.Blank
import TradeBars.Time.Instant

/-! Reading dates and times: RFC 3339 in its strict form and in a spaced form, and
dates and times without an offset, which are taken as UTC. -/
namespace TradeBars.Time

/-- A step that consumes the front of a text, or fails. -/
abbrev Reader := StateT (List Char) Option

namespace Reader

def satisfying (p : Char → Bool) : Reader Char := fun cs =>
  match cs with
  | c :: rest => if p c then some (c, rest) else none
  | [] => none

def literal (c : Char) : Reader Unit := discard (satisfying (· == c))

def blanks : Reader Unit := fun cs => some ((), Text.dropBlank cs)

def finish : Reader Unit := fun cs => if cs.isEmpty then some ((), []) else none

/-- From one digit up to the given number of them, as many as there are. -/
def number (most : Nat) : Reader Nat := fun cs =>
  let ds := (cs.take most).takeWhile Char.isDigit
  if ds.isEmpty then none else some (Decimal.value ds, cs.drop ds.length)

/-- Exactly the given number of digits. -/
def fixed (count : Nat) : Reader Nat := fun cs =>
  let ds := cs.take count
  if ds.length = count ∧ ds.all Char.isDigit then some (Decimal.value ds, cs.drop count) else none

/-- Any number of digits, but at least one. -/
def unbounded : Reader Nat := fun cs => number cs.length cs

/-- An optional point and digits; digits after the ninth are dropped. -/
def fraction : Reader Nat := fun cs =>
  match cs with
  | '.' :: rest =>
    let ds := rest.takeWhile Char.isDigit
    if ds.isEmpty then none
    else
      let nine := ds.take 9
      some (Decimal.value nine * Nat.pow 10 (9 - nine.length), rest.dropWhile Char.isDigit)
  | _ => some (0, cs)

end Reader

open Reader

/-- A time of day as read from text; the second may be 60. -/
structure Clock where
  hour : Nat
  minute : Nat
  second : Nat
  nanos : Nat

def Clock.valid (c : Clock) : Bool := c.hour ≤ 23 && c.minute ≤ 59 && c.second ≤ 60

/-- The instant of a date and a clock time at an offset of so many seconds east of
UTC. Second 60 is the leap second after second 59, whatever the minute. -/
def instant? (date : Date) (clock : Clock) (offset : Int) : Option Instant :=
  if date.valid ∧ clock.valid ∧ offset.natAbs < 86400 then
    let leap := clock.second = 60
    let second := if leap then 59 else clock.second
    let civil := date.toDays * 86400 + (clock.hour * 3600 + clock.minute * 60 + second : Nat)
    let seconds := civil - offset
    if Instant.firstSecond ≤ seconds ∧ seconds ≤ Instant.lastSecond then
      some ⟨seconds, if leap then clock.nanos + 1000000000 else clock.nanos⟩
    else none
  else none

def isMinus (c : Char) : Bool := c == '-' || c == '\u2212'

/-- A sign, two digits of hours, a separator and two digits of minutes up to 59. -/
def offset (separator : Reader Unit) : Reader Int := do
  let sign ← satisfying fun c => c == '+' || isMinus c
  let hours ← fixed 2
  separator
  let minutes ← fixed 2
  if minutes > 59 then failure
  let seconds : Int := (hours * 3600 + minutes * 60 : Nat)
  return if isMinus sign then -seconds else seconds

/-- The letter for UTC, or an offset. -/
def zone (separator : Reader Unit) : Reader Int :=
  (do discard (satisfying fun c => c == 'Z' || c == 'z'); return 0) <|> offset separator

def isDateEnd (c : Char) : Bool := c == 'T' || c == 't' || c == ' '

/-- RFC 3339 with all widths fixed. -/
def strict : Reader Instant := do
  let year ← fixed 4
  literal '-'
  let month ← fixed 2
  literal '-'
  let day ← fixed 2
  discard (satisfying isDateEnd)
  let hour ← fixed 2
  literal ':'
  let minute ← fixed 2
  literal ':'
  let second ← fixed 2
  let nanos ← fraction
  let east ← zone (literal ':')
  finish
  match instant? ⟨year, month, day⟩ ⟨hour, minute, second, nanos⟩ east with
  | some t => return t
  | none => failure

/-- Up to four digits, or a sign and any number of digits. -/
def year : Reader Int := do
  blanks
  (do literal '+'; return (← unbounded)) <|>
    (do literal '-'; return -(← unbounded : Nat)) <|>
    (do return (← number 4))

/-- One or two digits after any blanks. -/
def short : Reader Nat := do
  blanks
  number 2

/-- A date whose fields may be short; `gap` may stand before each mark. -/
def looseDate (gap : Reader Unit) : Reader Date := do
  let year ← year
  gap
  literal '-'
  let month ← short
  gap
  literal '-'
  let day ← short
  return ⟨year, month, day⟩

def looseClock (gap : Reader Unit) : Reader Clock := do
  let hour ← short
  gap
  literal ':'
  let minute ← short
  gap
  literal ':'
  let second ← short
  let nanos ← fraction
  return ⟨hour, minute, second, nanos⟩

/-- A date and a time of day in UTC, with a `T` or any blanks, even none, between them. -/
def naive : Reader Instant := do
  let date ← looseDate (pure ())
  literal 'T' <|> blanks
  let clock ← looseClock (pure ())
  finish
  match instant? date clock 0 with
  | some t => return t
  | none => failure

/-- Midnight UTC of a date. -/
def midnight : Reader Instant := do
  let date ← looseDate (pure ())
  finish
  match instant? date ⟨0, 0, 0, 0⟩ 0 with
  | some t => return t
  | none => failure

/-- The word UTC in any case. -/
def utcWord : Reader Int := do
  discard (satisfying fun c => c == 'U' || c == 'u')
  discard (satisfying fun c => c == 'T' || c == 't')
  discard (satisfying fun c => c == 'C' || c == 'c')
  return 0

/-- RFC 3339 with short fields, blanks around the marks and the word UTC allowed. -/
def spaced : Reader Instant := do
  let date ← looseDate blanks
  discard (satisfying isDateEnd)
  let clock ← looseClock blanks
  blanks
  let separator : Reader Unit := fun cs =>
    some ((), cs.dropWhile fun c => c == ':' || Text.isBlank c)
  let east ← utcWord <|> zone separator
  blanks
  finish
  match instant? date clock east with
  | some t => return t
  | none => failure

end TradeBars.Time

namespace TradeBars.Instant

/-- The instant that a text spells: strict RFC 3339, or a date and time or a date
alone in UTC. -/
def read? (cs : List Char) : Option Instant :=
  ((Time.strict <|> Time.naive <|> Time.midnight) cs).map (·.1)

/-- The instant of a text that names its offset. -/
def readZoned? (cs : List Char) : Option Instant := (Time.spaced cs).map (·.1)

end TradeBars.Instant
