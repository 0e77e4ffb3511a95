import Mathlib.Data.List.Induction
import Mathlib.Data.Nat.Digits.Defs
import Mathlib.Tactic.Ring
import TradeBars.Decimal.Digits
import TradeBars.Proofs.Text.Trimming

/-! Amounts in writing. Digits count units, and the mark of the unit stands right behind them, with
nothing but blanks around the whole. Trimmed text splits in one way into digits and a mark that does
not begin with a digit. -/
namespace TradeBars

namespace Decimal

/-- The number that digits spell is the one that they spell in base ten. -/
theorem value_eq_ofDigits (ds : List Char) :
    value ds = Nat.ofDigits 10 (ds.reverse.map digitValue) := by
  induction ds using List.reverseRecOn with
  | nil => rfl
  | append_singleton ds c ih => simp [value_append_singleton, ih, Nat.ofDigits_cons, Nat.add_comm]

theorem value_append_zeros (ds : List Char) (count : Nat) :
    value (ds ++ List.replicate count '0') = value ds * 10 ^ count := by
  induction count with
  | zero => simp
  | succ count ih =>
    have zero : digitValue '0' = 0 := rfl
    rw [List.replicate_succ', ← List.append_assoc, value_append_singleton, ih, zero]
    ring

end Decimal

namespace Text

/-- A number in decimal digits, maybe with zeros in front, and a mark right behind it. -/
inductive Counted (mark : List Char) (n : Nat) : List Char → Prop where
  | intro {before ds after : List Char} : (∀ c ∈ before, isBlank c = true) → ds ≠ [] →
      (∀ c ∈ ds, c.isDigit = true) → Nat.ofDigits 10 (ds.reverse.map Decimal.digitValue) = n →
      (∀ c ∈ after, isBlank c = true) → Counted mark n (before ++ (ds ++ mark) ++ after)

/-- An amount in one of several units, which are given by their marks and sizes. Neither the number
of units nor the amount itself reaches the bound. -/
inductive Amount (units : List (String × Nat)) (bound : Nat) (cs : List Char) : Nat → Prop where
  | of {mark : String} {size n : Nat} : (mark, size) ∈ units → Counted mark.toList n cs →
      n < bound → n * size < bound → Amount units bound cs (n * size)

variable {mark ds cs : List Char} {n : Nat}

/-- Trimming leaves the digits and the mark. -/
theorem counted_iff (dark : ∀ c ∈ mark, isBlank c = false) : Counted mark n cs ↔
    ∃ ds, ds ≠ [] ∧ (∀ c ∈ ds, c.isDigit = true) ∧ Decimal.value ds = n ∧ strip cs = ds ++ mark := by
  constructor
  · rintro ⟨isBefore, nonempty, digits, value, isAfter⟩
    have dark : ∀ c ∈ _ ++ mark, isBlank c = false :=
      List.forall_mem_append.mpr ⟨fun c member => isBlank_of_isDigit (digits c member), dark⟩
    obtain ⟨begins, ends⟩ :=
      edges_of_all_not (List.append_ne_nil_of_left_ne_nil nonempty mark) dark
    exact ⟨_, nonempty, digits, (Decimal.value_eq_ofDigits _).trans value,
      strip_around isBefore isAfter begins ends⟩
  · rintro ⟨ds, nonempty, digits, value, stripped⟩
    obtain ⟨before, after, isBefore, isAfter, split⟩ := exists_strip cs
    rw [split, stripped]
    exact .intro isBefore nonempty digits ((Decimal.value_eq_ofDigits ds).symm.trans value) isAfter

theorem counted_append (nonempty : ds ≠ []) (digits : ∀ c ∈ ds, c.isDigit = true)
    (mark : List Char) :
    Counted mark (Decimal.value ds) (ds ++ mark) := by
  have bare : Counted mark (Decimal.value ds) ([] ++ (ds ++ mark) ++ []) :=
    .intro (List.forall_mem_nil _) nonempty digits (Decimal.value_eq_ofDigits ds).symm
      (List.forall_mem_nil _)
  simpa using bare

theorem counted_digits (n : Nat) (mark : List Char) : Counted mark n (Decimal.digits n ++ mark) := by
  simpa only [Decimal.value_digits] using
    counted_append (Decimal.digits_ne_nil n) (fun _ => Decimal.isDigit_of_mem_digits) mark

theorem Amount.lt {units : List (String × Nat)} {bound amount : Nat}
    (written : Amount units bound cs amount) : amount < bound := by
  obtain ⟨-, -, -, fits⟩ := written
  exact fits

/-- Characters of one kind end where one of another kind begins. -/
theorem span_append {kind : Char → Bool} {run rest : List Char} (all : ∀ c ∈ run, kind c = true)
    (boundary : ∀ c ∈ rest.head?, kind c = false) :
    (run ++ rest).takeWhile kind = run ∧ (run ++ rest).dropWhile kind = rest := by
  rw [List.takeWhile_append_of_pos all, List.dropWhile_append_of_pos all]
  cases rest with
  | nil => simp
  | cons c rest => simp [boundary c rfl]

end Text

end TradeBars
