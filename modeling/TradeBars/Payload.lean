import TradeBars.Aliases
import TradeBars.Decimal.Numeral
import TradeBars.Json.Printer
import TradeBars.Time.Reader
import TradeBars.Trade

/-! Trades from raw payloads: any JSON value, read through a table of aliases. The
fields are judged in a fixed order, and the first one at fault decides. -/
namespace TradeBars.Payload

/-- Below this magnitude a float has its whole seconds in 64 bits. -/
def timestampBound : Float := 9223372036854775808

/-- An integer of 64 bits, or a finite number below the bound, in the unit of the
table and rounded towards the past; or a date. Zero and blank text count as missing. -/
def timestamp (v : Json) (field : String) (unit : TimestampUnit) : Except Rejection Int :=
  match v.get? field with
  | none | some .null => .error (.missingField field)
  | some (.num n) =>
    match Json.int64? (.num n) with
    | some i => if i = 0 then .error (.missingField field) else .ok (i / unit.perSecond)
    | none =>
      let x := n.toFloat
      if x == 0 then .error (.missingField field)
      else if x.abs < timestampBound then
        .ok (Binary64.floor (x / Binary64.ofInt unit.perSecond))
      else .error (.unparseable field (Json.text (.num n)))
  | some (.str s) =>
    let cs := Text.strip s.toList
    if cs.isEmpty then .error (.missingField field)
    else
      match Instant.read? cs with
      | some t => .ok t.seconds
      | none => .error (.unparseable field (Json.text (.str s)))
  | some other => .error (.unparseable field other.text)

/-- A number, or text that spells a finite one between blanks. -/
def number (v : Json) (field : String) : Except Rejection Float :=
  match v.get? field with
  | none | some .null => .error (.missingField field)
  | some (.num n) => .ok n.toFloat
  | some (.str s) =>
    if s.isEmpty then .error (.missingField field)
    else
      match Decimal.finite? (Text.strip s.toList) with
      | some x => .ok x
      | none => .error (.nonNumeric field (Json.text (.str s)))
  | some other => .error (.nonNumeric field other.text)

/-- The side that a word names, without regard to the case of ASCII letters. -/
def sideOfWord? (s : String) : Option Side :=
  let word := s.toList.map Char.toLower
  if word = ['b', 'u', 'y'] then some .buy
  else if word = ['s', 'e', 'l', 'l'] then some .sell
  else none

/-- The side under one alias: `none` where the alias is unset, or its value absent or null. -/
def sideUnder (v : Json) (field : Option String) (side? : Json → Option Side) :
    Except Rejection (Option Side) :=
  match field with
  | none => .ok none
  | some field =>
    match v.get? field with
    | none | some .null => .ok none
    | some value =>
      match side? value with
      | some side => .ok (some side)
      | none => .error (.invalidSide field value.text)

def wordSide? : Json → Option Side
  | .str s => sideOfWord? s
  | _ => none

/-- A set maker flag stands for a buy. -/
def flagSide? : Json → Option Side
  | .bool true => some .buy
  | .bool false => some .sell
  | _ => none

/-- The word for the side decides alone where it is there, else the maker flag. -/
def side (v : Json) (aliases : Aliases) : Except Rejection Side := do
  match ← sideUnder v aliases.side wordSide? with
  | some side => return side
  | none =>
    match ← sideUnder v aliases.maker flagSide? with
    | some side => return side
    | none => .error .sideUndetermined

def symbol (v : Json) (field : String) : Except Rejection String :=
  match v.get? field with
  | some (.str s) => .ok s
  | _ => .error (.invalidSymbol field)

/-- The trade that a payload describes. -/
def trade (aliases : Aliases) (v : Json) : Except Rejection (Trade Float) := do
  let timestamp ← timestamp v aliases.timestamp aliases.unit
  let price ← number v aliases.price
  let qty ← number v aliases.qty
  let side ← side v aliases
  let symbol ← symbol v aliases.symbol
  return ⟨timestamp, price, qty, side, symbol⟩

end TradeBars.Payload
