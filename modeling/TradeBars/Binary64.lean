import TradeBars.Decimal.Digits

/-! Binary64 values and integers. Both directions are exact integer arithmetic on
the unpacked value, so that large magnitudes neither wrap nor lose bits unseen. -/
namespace TradeBars.Binary64

open Float.Model

/-- The nearest value, ties to even. -/
def ofInt (n : Int) : Float := .ofModel (.pack (.ofInt .binary64 n))

/-- The integer part towards zero. Infinities give the bound on their side, and
not-a-number gives zero. -/
def truncate (low high : Int) (x : Float) : Int :=
  max low (min high (x.toModel.unpack.toInt low high))

/-- The greatest integer that is not above a finite value, and zero for the others. -/
def floor (x : Float) : Int :=
  match x.toModel.unpack with
  | .finite sign m q _ =>
    let n : Int := match sign with
      | .positive => m
      | .negative => -m
    if 0 ≤ q then n * Int.pow 2 q.toNat else n / Int.pow 2 (-q).toNat
  | _ => 0

/-- The integers of 64 bits, signed. -/
def toInt64 (x : Float) : Int := truncate (-0x8000000000000000) 0x7fffffffffffffff x

def toUInt32 (x : Float) : UInt32 := (truncate 0 0xffffffff x).toNat.toUInt32

end TradeBars.Binary64
