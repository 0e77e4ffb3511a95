import Mathlib.Data.List.DropRight
import Mathlib.Data.List.ModifyLast

/-! The last elements of a list, `List.rtake`, and changes of the very last one. A list
that runs from old to new keeps its newest elements that way. -/
namespace TradeBars.Newest

variable {β : Type}

theorem length_rtake (xs : List β) (n : Nat) : (xs.rtake n).length = min n xs.length := by
  rw [List.rtake, List.length_drop]
  omega

theorem rtake_of_length_le {xs : List β} {n : Nat} (h : xs.length ≤ n) : xs.rtake n = xs := by
  rw [List.rtake, Nat.sub_eq_zero_of_le h, List.drop_zero]

theorem rtake_min_length (xs : List β) (n : Nat) : xs.rtake (min n xs.length) = xs.rtake n := by
  rw [List.rtake, List.rtake]
  congr 1
  omega

theorem rtake_append (xs ys : List β) (n : Nat) :
    (xs ++ ys).rtake n = xs.rtake (n - ys.length) ++ ys.rtake n := by
  have front : xs.drop (xs.length + ys.length - n) = xs.drop (xs.length - (n - ys.length)) := by
    by_cases h : n ≤ ys.length
    · exact (List.drop_eq_nil_of_le (by omega)).trans (List.drop_eq_nil_of_le (by omega)).symm
    · congr 1
      omega
  have back : xs.length + ys.length - n - xs.length = ys.length - n := by omega
  rw [List.rtake, List.drop_append, List.length_append, front, back, List.rtake, List.rtake]

theorem rtake_rtake (xs : List β) (m n : Nat) : (xs.rtake m).rtake n = xs.rtake (min m n) := by
  rw [List.rtake, length_rtake, List.rtake, List.rtake, List.drop_drop]
  congr 1
  omega

/-- What was left out of the front is not missed once the list has grown at the end. -/
theorem rtake_rtake_append (xs ys : List β) (n : Nat) :
    (xs.rtake n ++ ys).rtake n = (xs ++ ys).rtake n := by
  rw [rtake_append, rtake_append, rtake_rtake, Nat.min_eq_right (Nat.sub_le ..)]

theorem map_rtake {γ : Type} (f : β → γ) (xs : List β) (n : Nat) :
    (xs.rtake n).map f = (xs.map f).rtake n := by
  rw [List.rtake, List.rtake, List.map_drop, List.length_map]

theorem rtake_suffix (xs : List β) (n : Nat) : xs.rtake n <:+ xs := List.drop_suffix _ _

theorem eq_rtake_of_suffix {xs ys : List β} (h : xs <:+ ys) : xs = ys.rtake xs.length :=
  List.suffix_iff_eq_drop.mp h

theorem getLast?_rtake (xs : List β) {n : Nat} (positive : 0 < n) :
    (xs.rtake n).getLast? = xs.getLast? := by
  induction xs using List.reverseRecOn with
  | nil => rw [List.rtake_nil]
  | append_singleton xs x =>
    obtain ⟨n, rfl⟩ := Nat.exists_eq_succ_of_ne_zero positive.ne'
    rw [List.rtake_concat_succ, List.getLast?_concat, List.getLast?_concat]

@[simp] theorem modifyLast_nil (f : β → β) : ([] : List β).modifyLast f = [] := rfl

theorem length_modifyLast (f : β → β) (xs : List β) : (xs.modifyLast f).length = xs.length := by
  induction xs using List.reverseRecOn with
  | nil => rfl
  | append_singleton xs x =>
    rw [List.modifyLast_concat, List.length_append, List.length_append]
    rfl

theorem getElem?_modifyLast (f : β → β) (xs : List β) (i : Nat) :
    (xs.modifyLast f)[i]? = if i + 1 = xs.length then xs[i]?.map f else xs[i]? := by
  induction xs using List.reverseRecOn with
  | nil => simp
  | append_singleton xs x =>
    rw [List.modifyLast_concat]
    grind

theorem modifyLast_rtake (f : β → β) (xs : List β) {n : Nat} (positive : 0 < n) :
    (xs.rtake n).modifyLast f = (xs.modifyLast f).rtake n := by
  induction xs using List.reverseRecOn with
  | nil => rw [List.rtake_nil, modifyLast_nil, List.rtake_nil]
  | append_singleton xs x =>
    obtain ⟨n, rfl⟩ := Nat.exists_eq_succ_of_ne_zero positive.ne'
    rw [List.rtake_concat_succ, List.modifyLast_concat, List.modifyLast_concat,
      List.rtake_concat_succ]

end TradeBars.Newest
