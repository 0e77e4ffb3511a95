import TradeBars.Fault
import TradeBars.Trend.Average

/-! The angle of the least-squares line through the last values of a list. -/
namespace TradeBars.Trend

/-- The number of values that a line is fitted to. -/
structure Window where
  size : Nat
  two_le : 2 ≤ size

def Window.new (size : Nat) : Except Fault Window :=
  if h : 2 ≤ size then .ok ⟨size, h⟩ else .error (.config (.shortWindow size))

variable {α : Type}

/-- The sums of the products of the deviations, and of the squares of the deviations
of the abscissae, where the values stand at 1, 2, 3 and so on. -/
def deviations [Scalar α] (ys : List α) : α × α :=
  let xMean := (Scalar.ofInt ys.length + Scalar.ofInt 1) / Scalar.ofInt 2
  let yMean := mean ys
  ys.zipIdx.foldl (fun (products, squares) (y, i) =>
    let dx := Scalar.ofInt (i + 1 : Nat) - xMean
    (products + dx * (y - yMean), squares + dx * dx)) (0, 0)

/-- The slope of the least-squares line. -/
def slope [Scalar α] (ys : List α) : α :=
  let (products, squares) := deviations ys
  products / squares

def fitAngle [Angular α] (ys : List α) : α := Angular.degrees (slope ys)

/-- The angle of the last values, and zero if there are too few. -/
def Window.lastAngle [Angular α] (w : Window) (xs : List α) : α :=
  if xs.length < w.size then 0 else fitAngle (xs.drop (xs.length - w.size))

/-- The angle at every index, undefined while there are too few values. -/
def Window.angles [Angular α] (w : Window) (xs : List α) : List α :=
  List.replicate (min xs.length (w.size - 1)) Angular.nan ++ (windows w.size xs).map fitAngle

/-- The angle of the last `size` values. -/
def lastAngle [Angular α] (xs : List α) (size : Nat) : Except Fault α := do
  return (← Window.new size).lastAngle xs

/-- The angle of `size` values at every index. -/
def angles [Angular α] (xs : List α) (size : Nat) : Except Fault (List α) := do
  return (← Window.new size).angles xs

end TradeBars.Trend
