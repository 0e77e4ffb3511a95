/-! The shortest decimal that reads back as a given binary64 value. -/
namespace TradeBars.Decimal

/-- The number of decimal digits of `n`, one for zero. -/
def width (n : Nat) : Nat := if n < 10 then 1 else width (n / 10) + 1

/-- The greatest `e` with `10 ^ e ≤ num / den`, for positive arguments. -/
def leadingExponent (num den : Nat) : Int :=
  if den ≤ num then width (num / den) - 1
  else
    let w := width (den / num)
    if den ≤ num * Nat.pow 10 (w - 1) then -((w : Int) - 1) else -(w : Int)

/-- The reals that round to one positive binary64 value, as fractions over `den`. -/
structure RoundingInterval where
  low : Nat
  mid : Nat
  high : Nat
  den : Nat
  /-- Whether the two ends round to the value as well. -/
  closed : Bool

/-- The interval of `m * 2 ^ q`. Below a power of two the neighbour is nearer. -/
def RoundingInterval.of (m : Nat) (q : Int) : RoundingInterval :=
  let scale := Nat.pow 2 (q - 2).toNat
  let below := if m = Nat.pow 2 52 ∧ q > -1074 then 1 else 2
  let den := Nat.pow 2 (2 - q).toNat
  ⟨(4 * m - below) * scale, 4 * m * scale, (4 * m + 2) * scale, den, m % 2 = 0⟩

/-- The multiple of `10 ^ step` in the interval that is nearest to its middle, if
one of the two next to the middle lies inside; a tie goes to the even one. -/
def RoundingInterval.nearestAt? (r : RoundingInterval) (step : Int) : Option Nat :=
  let up := Nat.pow 10 (-step).toNat
  let unit := r.den * Nat.pow 10 step.toNat
  let inside (c : Nat) : Bool :=
    if r.closed then r.low * up ≤ c * unit && c * unit ≤ r.high * up
    else r.low * up < c * unit && c * unit < r.high * up
  let c := r.mid * up / unit
  let remainder := r.mid * up % unit
  match inside c, inside (c + 1) with
  | true, true =>
    if 2 * remainder < unit ∨ (2 * remainder = unit ∧ c % 2 = 0) then some c else some (c + 1)
  | true, false => some c
  | false, true => some (c + 1)
  | false, false => none

/-- The shortest decimal `c * 10 ^ e` that rounds to `m * 2 ^ q`, as `(c, e)`:
the coarsest of the grids with 1 to 17 digits that has a point in the interval. -/
def shortest (m : Nat) (q : Int) : Nat × Int :=
  let r := RoundingInterval.of m q
  let top := leadingExponent r.mid r.den
  let grid (k : Nat) : Option (Nat × Int) := (r.nearestAt? (top - k)).map (·, top - k)
  ((List.range 17).findSome? grid).getD (m, q)

end TradeBars.Decimal
