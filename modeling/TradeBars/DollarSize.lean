import TradeBars.Fault
import TradeBars.Scalar
import TradeBars.Text.Blank

/-! The traded value at which a dollar bar closes. -/
namespace TradeBars

/-- A whole number of units of the quote currency. -/
structure DollarSize where
  units : UInt64
  deriving DecidableEq, Repr

namespace DollarSize

def value {α : Type} [Scalar α] (d : DollarSize) : α := Scalar.ofInt d.units.toNat

/-- A last `k` stands for thousands and a last `M` for millions. -/
def splitSuffix (cs : List Char) : List Char × Nat :=
  match cs.getLast? with
  | some 'k' => (cs.dropLast, 1000)
  | some 'M' => (cs.dropLast, 1000000)
  | _ => (cs, 1)

/-- Digits and an optional suffix, without regard to blanks around them, whose
product fits in 64 bits. -/
def parse? (cs : List Char) : Option DollarSize :=
  let (ds, factor) := splitSuffix (Text.strip cs)
  if ds.isEmpty ∨ !ds.all Char.isDigit then none
  else
    let units := Decimal.value ds * factor
    if units < UInt64.size then some ⟨units.toUInt64⟩ else none

def read (text : String) : Except Fault DollarSize :=
  match parse? text.toList with
  | some d => .ok d
  | none => .error (.dollarSize text)

end DollarSize

end TradeBars
