import TradeBars.Binary64

/-! The arithmetic of prices, quantities and what is derived from them. Bars and
their sums are written once over a scalar type: binary64 runs them, and an exact
ordered field, where nothing is missing or infinite, shows what they compute. -/
namespace TradeBars

class Scalar (α : Type) extends Zero α, Add α, Sub α, Mul α, Div α where
  ofInt : Int → α
  /-- The comparisons are false as soon as one side is not a number. -/
  lt : α → α → Bool
  le : α → α → Bool
  eq : α → α → Bool
  isNaN : α → Bool
  isFinite : α → Bool

instance : Scalar Float where
  zero := 0
  ofInt := Binary64.ofInt
  lt a b := a < b
  le a b := a ≤ b
  eq a b := a == b
  isNaN := Float.isNaN
  isFinite := Float.isFinite

namespace Scalar

variable {α : Type} [Scalar α]

/-- The greater of two values, where a number wins over not-a-number. -/
def larger (a b : α) : α :=
  if isNaN a then b else if isNaN b then a else if lt b a then a else b

/-- The lesser of two values, where a number wins over not-a-number. -/
def smaller (a b : α) : α :=
  if isNaN a then b else if isNaN b then a else if lt b a then b else a

/-- A value that is there and is a number. -/
def present (x : Option α) : Option α := x.filter fun v => !isNaN v

/-- The sum from the left, starting at zero. -/
def sum (xs : List α) : α := xs.foldl (· + ·) 0

end Scalar

end TradeBars
