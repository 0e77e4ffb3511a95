import TradeBars.Candle.Basic
import TradeBars.Fault
import TradeBars.Json.Printer
import TradeBars.Text.Blank
import TradeBars.Time.Reader

/-! Candles from a table of JSON records, one record a row. -/
namespace TradeBars.Candle

def timeColumn : String := "origin_time"

/-- The columns that must occur somewhere in a table that has rows. -/
def priceColumns : List String := ["open", "high", "low", "close"]

/-- The time of a row: a date between blanks, or whole seconds. -/
def rowTime (row : Json) : Except Fault Instant :=
  let refused (v : Json) : Except Fault Instant :=
    .error (.rejected (.unparseable timeColumn v.text))
  match row.get? timeColumn with
  | none | some .null => .error (.rejected (.missingField timeColumn))
  | some (.str s) =>
    match Instant.read? (Text.strip s.toList) with
    | some t => .ok t
    | none => refused (.str s)
  | some v =>
    match v.int64?.bind Instant.ofSeconds? with
    | some t => .ok t
    | none => refused v

/-- The value of a row in a column of prices; null and absence are both allowed. -/
def rowPrice (row : Json) (column : String) : Except Fault (Option Float) :=
  match row.get? column with
  | none | some .null => .ok none
  | some (.num n) => .ok (some n.toFloat)
  | some other => .error (.columns (.nonNumeric column other.text))

/-- The volume of a row; what is no number counts as missing. -/
def rowVolume (row : Json) : Option Float :=
  match row.get? "volume" with
  | some (.num n) => some n.toFloat
  | _ => none

def ofRow (row : Json) : Except Fault (Candle Float) := do
  let openTime ← rowTime row
  let openPrice ← rowPrice row "open"
  let high ← rowPrice row "high"
  let low ← rowPrice row "low"
  let close ← rowPrice row "close"
  return ⟨openTime, openPrice, high, low, close, rowVolume row⟩

/-- The first column of prices that no row has as a key. -/
def missingColumn? (rows : List Json) : Option String :=
  priceColumns.find? fun column => rows.all fun row => (row.get? column).isNone

/-- One candle for each row. A row at fault is reported before a missing column. -/
def ofTable (rows : List Json) : Except Fault (List (Candle Float)) := do
  let candles ← rows.mapM ofRow
  if rows.isEmpty then return candles
  else
    match missingColumn? rows with
    | some column => .error (.columns (.missing column))
    | none => return candles

end TradeBars.Candle
