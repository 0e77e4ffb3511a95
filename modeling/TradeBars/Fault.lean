import TradeBars.Decimal.Digits

/-! What can go wrong, as causes, and the one wording of each cause. -/
namespace TradeBars

/-- Why one raw trade payload, or a table of its field names, is refused. Values are
kept as their text. -/
inductive Rejection where
  | missingAlias (key : String)
  | missingField (field : String)
  | unparseable (field value : String)
  | nonNumeric (field value : String)
  | invalidSide (field value : String)
  | sideUndetermined
  | invalidSymbol (field : String)
  deriving DecidableEq, Repr

def Rejection.message : Rejection → String
  | .missingAlias key => "alias table must contain a '" ++ key ++ "' key"
  | .missingField field => "field '" ++ field ++ "' is missing or empty"
  | .unparseable field value =>
    "field '" ++ field ++ "' is not a timestamp or parseable date: " ++ value
  | .nonNumeric field value => "field '" ++ field ++ "' must be numeric, got " ++ value
  | .invalidSide field value => "invalid side in '" ++ field ++ "': " ++ value
  | .sideUndetermined => "trade side could not be determined"
  | .invalidSymbol field => "field '" ++ field ++ "' must be a string symbol"

/-- A setting that no run can use. -/
inductive Misconfiguration where
  | zeroTickSize
  | zeroMaxRecords
  | zeroFetchLimit
  | shortAngle
  | shortAverage (number : Nat)
  | dollarSize (text : String)
  | zeroCapacity
  | zeroThreshold
  | zeroGroup
  | shortWindow (size : Nat)
  deriving DecidableEq, Repr

def invalidDollarSizeMessage (text : String) : String := "Invalid dollar size: " ++ text

def natText (n : Nat) : String := String.ofList (Decimal.digits n)

def Misconfiguration.message : Misconfiguration → String
  | .zeroTickSize => "tick_bars.tick_size must be positive"
  | .zeroMaxRecords => "tick_bars.max_records must be positive"
  | .zeroFetchLimit => "backfill.max_fetch_limit must be positive"
  | .shortAngle => "trend_angle.angle_length must be at least 3"
  | .shortAverage number => "trend_angle.sma" ++ natText number ++ "_length must be at least 2"
  | .dollarSize text => "dollar_bars.dollar_size: " ++ invalidDollarSizeMessage text
  | .zeroCapacity => "bar series capacity must be positive"
  | .zeroThreshold => "tick threshold must be positive"
  | .zeroGroup => "tick_size must be positive"
  | .shortWindow size => "trend angle window must be at least 2, got " ++ natText size

/-- Why a column of a candle table is refused. -/
inductive ColumnFault where
  | missing (column : String)
  | nonNumeric (column value : String)
  deriving DecidableEq, Repr

def ColumnFault.message : ColumnFault → String
  | .missing column => "missing column '" ++ column ++ "'"
  | .nonNumeric column value => "column '" ++ column ++ "' holds non-numeric value " ++ value

/-- Every failure of an operation as a whole. -/
inductive Fault where
  | config (cause : Misconfiguration)
  | rejected (cause : Rejection)
  | interval (text : String)
  | dollarSize (text : String)
  | columns (cause : ColumnFault)
  | outOfRange (seconds : Int)
  /-- The text could not be read at all. -/
  | unreadable
  /-- The text is no JSON, or not of the expected shape. -/
  | json
  /-- The slots of a series could not be allocated, and the program does not go on. -/
  | allocation
  deriving DecidableEq, Repr

def Fault.message : Fault → String
  | .config cause => "Configuration error: " ++ cause.message
  | .rejected cause => "Normalization error: " ++ cause.message
  | .interval text => "Invalid interval: " ++ text
  | .dollarSize text => invalidDollarSizeMessage text
  | .columns cause => "Non-numeric data in OHLC columns: " ++ cause.message
  | .outOfRange seconds => "timestamp " ++ String.ofList (Decimal.ofInt seconds) ++ " out of range"
  | .unreadable => "I/O error"
  | .json => "JSON error"
  | .allocation => "out of memory"

end TradeBars
