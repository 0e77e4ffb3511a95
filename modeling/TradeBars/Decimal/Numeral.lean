import TradeBars.Decimal.Digits

/-! Decimal numerals with an optional fraction and exponent, and the binary64
value nearest to one. A spelling keeps the parts of the text apart, so that each
reader can add its own conditions on them. -/
namespace TradeBars.Decimal

/-- The parts of `digits[.digits][e[±]digits]`; every part may be absent. -/
structure Spelling where
  whole : List Char
  /-- The digits after the point, if there is a point. -/
  fraction : Option (List Char)
  exponent : Option Int

/-- A sign and at least one digit. -/
def exponent? (cs : List Char) : Option Int :=
  let (negative, ds) := match cs with
    | '+' :: rest => (false, rest)
    | '-' :: rest => (true, rest)
    | rest => (false, rest)
  if ds.isEmpty || !ds.all Char.isDigit then none
  else if negative then some (-(value ds : Int)) else some (value ds)

/-- Splits the whole of an unsigned text into the parts of a numeral. -/
def Spelling.read? (cs : List Char) : Option Spelling :=
  let whole := cs.takeWhile Char.isDigit
  let (fraction, rest) := match cs.dropWhile Char.isDigit with
    | '.' :: rest => (some (rest.takeWhile Char.isDigit), rest.dropWhile Char.isDigit)
    | rest => (none, rest)
  match rest with
  | [] => some ⟨whole, fraction, none⟩
  | c :: rest =>
    if c == 'e' || c == 'E' then (exponent? rest).map (⟨whole, fraction, some ·⟩) else none

/-- The number `coefficient * 10 ^ exponent`, negated if so marked: zero keeps its sign. -/
structure Numeral where
  negative : Bool
  coefficient : Nat
  exponent : Int

def Spelling.numeral (s : Spelling) (negative : Bool) : Numeral :=
  let fraction := s.fraction.getD []
  ⟨negative, value (s.whole ++ fraction), s.exponent.getD 0 - fraction.length⟩

/-- A midpoint between two neighbouring binary64 values has no more significant digits
than this. -/
def midpointDigits : Nat := 768

/-- Digits cut short: a one after the first `midpointDigits` stands for all the others.
If the others are not all zeros, no midpoint lies between the two numbers. If they are,
a midpoint becomes a number above it. -/
def abridged (ds : List Char) : List Char :=
  if ds.length ≤ midpointDigits then ds else ds.take midpointDigits ++ ['1']

/-- The numeral of the abridged digits. Zeros before the first digit and at the end of a
fraction are left out first, but those at the end of the whole part are digits too. -/
def Spelling.abridgedNumeral (s : Spelling) (negative : Bool) : Numeral :=
  let fraction := ((s.fraction.getD []).reverse.dropWhile (· == '0')).reverse
  let ds := (s.whole ++ fraction).dropWhile (· == '0')
  let kept := abridged ds
  ⟨negative, value kept, s.exponent.getD 0 - fraction.length + (ds.length - kept.length : Nat)⟩

/-- The nearest binary64 value, ties to even, infinite beyond the largest finite
one. Magnitudes that are out of range at sight are settled without raising ten to
the exponent. -/
def Numeral.toFloat (n : Numeral) : Float :=
  let magnitude : Float :=
    if n.coefficient = 0 then 0
    else
      -- The magnitude is below ten to this power, and not below a tenth of it.
      let bound := n.exponent + n.coefficient.repr.length
      if bound > 310 then Float.ofBits 0x7ff0000000000000
      else if bound < -330 then 0
      else Float.ofScientific n.coefficient (n.exponent < 0) n.exponent.natAbs
  if n.negative then -magnitude else magnitude

/-- Reads an optional sign and a numeral with at least one digit before or after
its point. Words for infinity or not-a-number are no numerals. -/
def Numeral.read? (cs : List Char) : Option Numeral :=
  let (negative, rest) := match cs with
    | '+' :: rest => (false, rest)
    | '-' :: rest => (true, rest)
    | rest => (false, rest)
  match Spelling.read? rest with
  | some s =>
    if s.whole.isEmpty && (s.fraction.getD []).isEmpty then none else some (s.numeral negative)
  | none => none

/-- The finite binary64 value that a text spells. -/
def finite? (cs : List Char) : Option Float :=
  (Numeral.read? cs).map Numeral.toFloat |>.filter Float.isFinite

end TradeBars.Decimal
