import TradeBars.Scalar
import Mathlib.Data.List.Induction
import Mathlib.Logic.Basic

/-! What the results on bars take from the arithmetic of their values. Numbers, which are
all values but not-a-number, are in an order in which different ones may tie. Zero added to
a number leaves it as it is, up to the sign of a zero. Sums may be regrouped in exact
arithmetic only. -/
namespace TradeBars

/-- Equal, or two zeros whatever their signs. -/
def Scalar.Same {α : Type} [Scalar α] (a b : α) : Prop :=
  a = b ∨ Scalar.eq a 0 = true ∧ Scalar.eq b 0 = true

open Scalar in
class LawfulScalar (α : Type) [Scalar α] : Prop where
  isNaN_zero : isNaN (0 : α) = false
  isNaN_ofInt (n : Int) : isNaN (ofInt n : α) = false
  isNaN_add {a b : α} : isNaN a = false → isFinite b = true → isNaN (a + b) = false
  lt_asymm {a b : α} : lt a b = true → lt b a = false
  lt_or_lt {a b : α} (c : α) : isNaN c = false → lt a b = true → lt a c = true ∨ lt c b = true
  le_eq {a b : α} : isNaN a = false → isNaN b = false → le a b = !lt b a
  zero_add_same {a : α} : isNaN a = false → Same (0 + a) a
  add_same {a b : α} (c : α) : Same a b → Same (a + c) (b + c)

/-- Arithmetic without rounding, in which every value is a number. -/
class ExactScalar (α : Type) [Scalar α] : Prop where
  isNaN_eq (a : α) : Scalar.isNaN a = false
  zero_add (a : α) : 0 + a = a
  add_zero (a : α) : a + 0 = a
  add_assoc (a b c : α) : a + b + c = a + (b + c)

namespace Scalar

variable {α : Type} [Scalar α]

theorem Same.symm {a b : α} (same : Same a b) : Same b a := same.imp Eq.symm And.symm

theorem Same.trans {a b c : α} (ab : Same a b) (bc : Same b c) : Same a c := by
  cases ab with
  | inl equal => exact equal ▸ bc
  | inr zeros =>
    cases bc with
    | inl equal => exact .inr ⟨zeros.1, equal ▸ zeros.2⟩
    | inr others => exact .inr ⟨zeros.1, others.2⟩

/-- Sums of the same values from the left stay the same. -/
theorem Same.foldl [LawfulScalar α] {a b : α} (same : Same a b) (xs : List α) :
    Same (xs.foldl (· + ·) a) (xs.foldl (· + ·) b) := by
  induction xs generalizing a b with
  | nil => exact same
  | cons x xs ih => exact ih (LawfulScalar.add_same x same)

/-- A value that is there and is a number. -/
def Recorded (x : Option α) (a : α) : Prop := x = some a ∧ isNaN a = false

theorem present_eq_some_iff {x : Option α} {a : α} : present x = some a ↔ Recorded x a := by
  rw [Recorded, present, Option.filter_eq_some_iff, Bool.not_eq_true']

theorem present_eq_none_iff {x : Option α} : present x = none ↔ ∀ a, ¬ Recorded x a := by
  simp only [← present_eq_some_iff, Option.eq_none_iff_forall_not_mem, Option.mem_def]

theorem isNaN_of_present {x : Option α} {a : α} (found : present x = some a) :
    isNaN a = false := (present_eq_some_iff.mp found).2

theorem present_of_number {a : α} (number : isNaN a = false) : present (some a) = some a := by
  simp [present, Option.filter, number]

section Order

variable [LawfulScalar α] {a b c : α}

theorem lt_trans (number : isNaN c = false) (ab : lt a b = true) (bc : lt b c = true) :
    lt a c = true := by
  cases LawfulScalar.lt_or_lt c number ab with
  | inl ac => exact ac
  | inr cb =>
    rw [LawfulScalar.lt_asymm bc] at cb
    contradiction

theorem not_lt_trans (number : isNaN b = false) (ab : lt a b = false) (bc : lt b c = false) :
    lt a c = false := by
  rw [Bool.eq_false_iff]
  intro ac
  cases LawfulScalar.lt_or_lt b number ac with
  | inl less => rw [ab] at less; contradiction
  | inr less => rw [bc] at less; contradiction

theorem not_lt_self (a : α) : lt a a = false := by
  rw [Bool.eq_false_iff]
  intro less
  rw [LawfulScalar.lt_asymm less] at less
  contradiction

theorem le_iff (left : isNaN a = false) (right : isNaN b = false) :
    le a b = true ↔ lt b a = false := by
  rw [LawfulScalar.le_eq left right, Bool.not_eq_true']

theorem le_self (number : isNaN a = false) : le a a = true :=
  (le_iff number number).mpr (not_lt_self a)

theorem le_trans (left : isNaN a = false) (middle : isNaN b = false) (right : isNaN c = false)
    (ab : le a b = true) (bc : le b c = true) : le a c = true := by
  rw [le_iff left middle] at ab
  rw [le_iff middle right] at bc
  exact (le_iff left right).mpr (not_lt_trans middle bc ab)

end Order

theorem sum_concat (xs : List α) (x : α) : sum (xs ++ [x]) = sum xs + x := List.foldl_append

/-- A sum of finite values may become infinite, but it stays a number. -/
theorem isNaN_sum [LawfulScalar α] {xs : List α} (finite : ∀ x ∈ xs, isFinite x = true) :
    isNaN (sum xs) = false := by
  induction xs using List.reverseRecOn with
  | nil => exact LawfulScalar.isNaN_zero
  | append_singleton xs x ih =>
    rw [sum_concat]
    exact LawfulScalar.isNaN_add (ih fun y member => finite y (List.mem_append_left _ member))
      (finite x (List.mem_append_right _ List.mem_cons_self))

section Pick

/-! The greater and the lesser of two values both keep one of them. -/

/-- The first of two numbers if the test says so, and else the second; a number wins over
not-a-number. -/
def pick (test : α → α → Bool) (a b : α) : α :=
  if isNaN a then b else if isNaN b then a else if test a b then a else b

theorem larger_eq_pick : (larger : α → α → α) = pick fun a b => lt b a := rfl

theorem smaller_eq_pick : (smaller : α → α → α) = pick fun a b => !lt b a := by
  funext a b
  cases less : lt b a <;> simp [smaller, pick, less]

variable (test : α → α → Bool) {a b : α}

theorem pick_of_nan_left (nan : isNaN a = true) : pick test a b = b := if_pos nan

theorem pick_of_nan_right (number : isNaN a = false) (nan : isNaN b = true) :
    pick test a b = a := by
  simp [pick, number, nan]

theorem pick_of_numbers (left : isNaN a = false) (right : isNaN b = false) :
    pick test a b = if test a b then a else b := by
  simp [pick, left, right]

theorem pick_eq_or (a b : α) : pick test a b = a ∨ pick test a b = b := by
  unfold pick
  split
  · exact .inr rfl
  · split
    · exact .inl rfl
    · split
      · exact .inl rfl
      · exact .inr rfl

omit test in
theorem isNaN_of_eq_or {c : α} (kept : c = a ∨ c = b) (left : isNaN a = false)
    (right : isNaN b = false) : isNaN c = false := by
  cases kept with
  | inl same => rw [same]; exact left
  | inr same => rw [same]; exact right

theorem isNaN_pick (left : isNaN a = false) (right : isNaN b = false) :
    isNaN (pick test a b) = false := isNaN_of_eq_or (pick_eq_or test a b) left right

theorem larger_eq_or (a b : α) : larger a b = a ∨ larger a b = b := by
  rw [larger_eq_pick]
  exact pick_eq_or _ a b

theorem smaller_eq_or (a b : α) : smaller a b = a ∨ smaller a b = b := by
  rw [smaller_eq_pick]
  exact pick_eq_or _ a b

/-- Not-a-number gives way on either side, so that only numbers need the two laws of the
test. -/
theorem pick_assoc
    (trans : ∀ a b c, isNaN a = false → isNaN b = false → isNaN c = false →
      test a b = true → test b c = true → test a c = true)
    (not_trans : ∀ a b c, isNaN a = false → isNaN b = false → isNaN c = false →
      test a b = false → test b c = false → test a c = false)
    (a b c : α) : pick test (pick test a b) c = pick test a (pick test b c) := by
  cases left : isNaN a with
  | true => rw [pick_of_nan_left test left, pick_of_nan_left test left]
  | false =>
    cases middle : isNaN b with
    | true => rw [pick_of_nan_right test left middle, pick_of_nan_left test middle]
    | false =>
      cases right : isNaN c with
      | true =>
        rw [pick_of_nan_right test (isNaN_pick test left middle) right,
          pick_of_nan_right test middle right]
      | false =>
        rw [pick_of_numbers test left middle, pick_of_numbers test middle right]
        cases ab : test a b with
        | true =>
          cases bc : test b c with
          | true =>
            have ac := trans a b c left middle right ab bc
            simp [pick_of_numbers, left, middle, right, ab, ac]
          | false => simp
        | false =>
          cases bc : test b c with
          | true => simp [pick_of_numbers, left, middle, right, ab, bc]
          | false =>
            have ac := not_trans a b c left middle right ab bc
            simp [pick_of_numbers, left, middle, right, ac, bc]

end Pick

section Extremes

variable [LawfulScalar α]

instance : Std.Associative (larger : α → α → α) where
  assoc a b c := by
    rw [larger_eq_pick]
    apply pick_assoc
    · intro a b c na _ _ ba cb
      exact lt_trans na cb ba
    · intro a b c _ nb _ ba cb
      exact not_lt_trans nb cb ba

instance : Std.Associative (smaller : α → α → α) where
  assoc a b c := by
    rw [smaller_eq_pick]
    apply pick_assoc
    · intro a b c _ nb _ ba cb
      rw [Bool.not_eq_true'] at ba cb ⊢
      exact not_lt_trans nb cb ba
    · intro a b c na _ _ ba cb
      rw [Bool.not_eq_false'] at ba cb ⊢
      exact lt_trans na cb ba

variable {a b : α} (left : isNaN a = false) (right : isNaN b = false)
include left right

theorem le_larger : le a (larger a b) = true ∧ le b (larger a b) = true := by
  rw [larger_eq_pick, pick_of_numbers _ left right]
  cases less : lt b a with
  | true =>
    have below := LawfulScalar.lt_asymm less
    exact ⟨le_self left, (le_iff right left).mpr below⟩
  | false => exact ⟨(le_iff left right).mpr less, le_self right⟩

theorem smaller_le : le (smaller a b) a = true ∧ le (smaller a b) b = true := by
  rw [smaller_eq_pick, pick_of_numbers _ left right]
  cases less : lt b a with
  | true =>
    have below := LawfulScalar.lt_asymm less
    exact ⟨(le_iff right left).mpr below, le_self right⟩
  | false => exact ⟨le_self left, (le_iff left right).mpr less⟩

end Extremes

section Exact

variable [ExactScalar α]

instance : Std.Associative (fun a b : α => a + b) where
  assoc := ExactScalar.add_assoc

theorem foldl_add (a : α) (xs : List α) : xs.foldl (· + ·) a = a + sum xs := by
  calc xs.foldl (· + ·) a
    _ = xs.foldl (· + ·) (a + 0) := by rw [ExactScalar.add_zero]
    _ = a + sum xs := List.foldl_assoc

theorem sum_append (xs ys : List α) : sum (xs ++ ys) = sum xs + sum ys := by
  exact List.foldl_append.trans (foldl_add _ _)

theorem sum_flatten (xss : List (List α)) : sum xss.flatten = sum (xss.map sum) := by
  induction xss with
  | nil => rfl
  | cons xs xss ih =>
    rw [List.flatten_cons, sum_append, ih, List.map_cons]
    exact ((foldl_add _ _).trans (congrArg (· + _) (ExactScalar.zero_add _))).symm

end Exact

end Scalar

end TradeBars
