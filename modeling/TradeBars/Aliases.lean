import TradeBars.Fault
import TradeBars.Json.Record

/-! Which keys of a raw payload carry the fields of a trade. -/
namespace TradeBars

/-- The unit of timestamps that are written as numbers. -/
inductive TimestampUnit where
  | seconds
  | milliseconds
  deriving DecidableEq, Repr

namespace TimestampUnit

def perSecond : TimestampUnit → Int
  | .seconds => 1
  | .milliseconds => 1000

def name : TimestampUnit → String
  | .seconds => "seconds"
  | .milliseconds => "milliseconds"

def ofJson? (v : Json) : Option TimestampUnit :=
  match v.alternative? with
  | some "seconds" => some .seconds
  | some "milliseconds" => some .milliseconds
  | _ => none

end TimestampUnit

/-- The side of a trade comes from one of two keys: a word under `side`, or a flag
under `maker`. -/
structure Aliases where
  timestamp : String
  price : String
  qty : String
  symbol : String
  side : Option String
  maker : Option String
  unit : TimestampUnit
  deriving DecidableEq, Repr

namespace Aliases

def withSide (timestamp price qty side symbol : String) : Aliases :=
  ⟨timestamp, price, qty, symbol, some side, none, .seconds⟩

def withMaker (timestamp price qty maker symbol : String) : Aliases :=
  ⟨timestamp, price, qty, symbol, none, some maker, .seconds⟩

/-- The keys of the Binance trade stream, whose timestamps are in milliseconds. -/
def binance : Aliases := { withMaker "T" "p" "q" "m" "s" with unit := .milliseconds }

/-- Builds the table from loose options. One of `side` and `maker` must be there. -/
def ofOptions (options : List (String × String)) : Except Rejection Aliases := do
  let option (key : String) : Option String := options.reverse.lookup key
  let required (key : String) : Except Rejection String :=
    match option key with
    | some value => .ok value
    | none => .error (.missingAlias key)
  let timestamp ← required "timestamp"
  let price ← required "price"
  let qty ← required "qty"
  let symbol ← required "symbol"
  let unit ← match option "timestamp_unit" with
    | none | some "s" | some "seconds" => Except.ok TimestampUnit.seconds
    | some "ms" | some "milliseconds" => .ok .milliseconds
    | some other => .error (.unparseable "timestamp_unit" other)
  if (option "side").isNone && (option "maker").isNone then .error (.missingAlias "side")
  else .ok ⟨timestamp, price, qty, symbol, option "side", option "maker", unit⟩

/-- The names of the fields in a record, of which the last three may be left off. -/
def fieldNames : List String :=
  ["timestamp", "price", "qty", "symbol", "side", "maker", "timestamp_unit"]

def ofJson? (v : Json) : Option Aliases := do
  match ← v.fields? fieldNames 3 with
  | [timestamp, price, qty, symbol, side, maker, unit] =>
    return {
      timestamp := ← Json.required Json.string? timestamp
      price := ← Json.required Json.string? price
      qty := ← Json.required Json.string? qty
      symbol := ← Json.required Json.string? symbol
      side := ← Json.nullable Json.string? side
      maker := ← Json.nullable Json.string? maker
      unit := ← Json.defaulted .seconds TimestampUnit.ofJson? unit }
  | _ => failure

/-- The keys of the side are written only where they are set. -/
def toJson (a : Aliases) : Json :=
  let optional (name : String) (key : Option String) : List (String × Json) :=
    match key with
    | some key => [(name, .str key)]
    | none => []
  .obj <|
    [("timestamp", .str a.timestamp), ("price", .str a.price), ("qty", .str a.qty),
      ("symbol", .str a.symbol)] ++
    optional "side" a.side ++ optional "maker" a.maker ++ [("timestamp_unit", .str a.unit.name)]

end Aliases

end TradeBars
