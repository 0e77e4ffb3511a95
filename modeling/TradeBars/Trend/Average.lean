import TradeBars.Scalar

/-! Moving averages. -/
namespace TradeBars

/-- Scalars with a value for what is not defined, and with the angle of a slope. -/
class Angular (α : Type) extends Scalar α where
  nan : α
  /-- The arctangent in degrees. -/
  degrees : α → α

/-- The factor from radians to degrees, rounded to binary64. -/
def degreesPerRadian : Float := Float.ofBits 0x404ca5dc1a63c1f8

/-- Binary64 values, with the angles that an arctangent gives. -/
@[reducible] def Angular.ofArctangent (arctangent : Float → Float) : Angular Float where
  nan := Float.ofBits 0x7ff8000000000000
  degrees x := arctangent x * degreesPerRadian

instance : Angular Float := .ofArctangent Float.atan

namespace Trend

variable {α : Type}

/-- All runs of `n` consecutive elements, in order. -/
def windows {β : Type} (n : Nat) (xs : List β) : List (List β) :=
  (List.range (xs.length + 1 - n)).map fun i => (xs.drop i).take n

/-- The mean, kept up to date from value to value: the `i`-th one moves it by an
`i`-th of the distance. -/
def mean [Scalar α] (xs : List α) : α :=
  (xs.foldl (fun (count, m) x => (count + 1, m + (x - m) / Scalar.ofInt (count + 1)))
    ((0 : Int), (0 : α))).2

/-- The mean of the last `length` values at every index, undefined while there are
fewer, and for length zero throughout. -/
def movingAverage [Angular α] (xs : List α) (length : Nat) : List α :=
  if length = 0 then List.replicate xs.length Angular.nan
  else
    List.replicate (min xs.length (length - 1)) Angular.nan ++ (windows length xs).map mean

end Trend

end TradeBars
