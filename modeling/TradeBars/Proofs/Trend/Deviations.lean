import TradeBars.Trend.Angle
import Mathlib.Data.List.Induction

/-! What the mean and the fit of a line add up. The mean of one more value moves by its share of the
distance, and the two sums of a fit are sums from the left: of the products of the deviations, and of
the squares of the deviations of the abscissae, which depend on the number of values alone. -/
namespace TradeBars.Trend

variable {α : Type} [Scalar α]

section Mean

theorem mean_foldl (xs : List α) :
    xs.foldl (fun (count, m) x => (count + 1, m + (x - m) / Scalar.ofInt (count + 1)))
      ((0 : Int), (0 : α)) = ((xs.length : Int), mean xs) := by
  induction xs using List.reverseRecOn with
  | nil => rfl
  | append_singleton xs x ih =>
    rw [mean, List.foldl_append, ih, List.length_append]
    rfl

theorem mean_concat (xs : List α) (x : α) :
    mean (xs ++ [x]) = mean xs + (x - mean xs) / Scalar.ofInt (xs.length + 1 : Nat) := by
  rw [mean, List.foldl_append, mean_foldl]
  rfl

end Mean

section Sums

/-- The middle of the abscissae from 1 to `n`. -/
def middle (n : Nat) : α := (Scalar.ofInt n + Scalar.ofInt 1) / Scalar.ofInt 2

/-- How far the `i`-th of `n` abscissae, which count from 0 here, is from the middle. -/
def offset (n i : Nat) : α := Scalar.ofInt (i + 1 : Nat) - middle n

def products (ys : List α) : List α :=
  ys.zipIdx.map fun (y, i) => offset ys.length i * (y - mean ys)

variable (α) in
def squares (n : Nat) : List α := (List.range n).map fun i => offset n i * offset n i

theorem foldl_sums {β : Type} (f g : β → α) (xs : List β) (a b : α) :
    xs.foldl (fun (p, q) x => (p + f x, q + g x)) (a, b) =
      ((xs.map f).foldl (· + ·) a, (xs.map g).foldl (· + ·) b) := by
  induction xs generalizing a b with
  | nil => rfl
  | cons x xs ih => exact ih _ _

theorem deviations_eq (ys : List α) :
    deviations ys = (Scalar.sum (products ys), Scalar.sum (squares α ys.length)) := by
  have numbers : ys.zipIdx.map Prod.snd = List.range ys.length := by
    rw [List.zipIdx_map_snd, List.range_eq_range']
  rw [squares, ← numbers, List.map_map]
  exact foldl_sums (fun (y, i) => offset ys.length i * (y - mean ys))
    (fun (_, i) => offset ys.length i * offset ys.length i) ys.zipIdx 0 0

theorem slope_eq (ys : List α) :
    slope ys = Scalar.sum (products ys) / Scalar.sum (squares α ys.length) := by
  rw [slope, deviations_eq]

end Sums

end TradeBars.Trend
