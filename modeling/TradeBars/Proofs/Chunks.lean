import TradeBars.Proofs.Newest
import Mathlib.Algebra.Order.Floor.Div

/-! Consecutive groups of `n` elements, where the last one may be shorter. One more
element either begins a group or goes into the last one. -/
namespace TradeBars

variable {β : Type}

def chunks (n : Nat) (xs : List β) : List (List β) :=
  (List.range (xs.length ⌈/⌉ n)).map fun i => (xs.drop (n * i)).take n

namespace Chunks

theorem length_chunks (n : Nat) (xs : List β) : (chunks n xs).length = xs.length ⌈/⌉ n := by
  rw [chunks, List.length_map, List.length_range]

theorem ceilDiv_eq {n m q : Nat} (lower : n * q < m) (upper : m ≤ n * (q + 1)) :
    m ⌈/⌉ n = q + 1 := by
  have positive : 0 < n := by
    by_contra zero
    simp only [Nat.eq_zero_of_not_pos zero, Nat.zero_mul] at lower upper
    omega
  apply le_antisymm
  · exact (ceilDiv_le_iff_le_mul positive).mpr upper
  · by_contra less
    have := (ceilDiv_le_iff_le_mul positive).mp (Nat.le_of_not_lt less)
    omega

/-- One more element begins a group exactly if the groups before it are all full. -/
theorem ceilDiv_succ {n : Nat} (positive : 0 < n) (m : Nat) :
    (m + 1) ⌈/⌉ n = m ⌈/⌉ n + if m % n = 0 then 1 else 0 := by
  have split := Nat.div_add_mod m n
  have short := Nat.mod_lt m positive
  have longer : (m + 1) ⌈/⌉ n = m / n + 1 := ceilDiv_eq (by omega) (by rw [Nat.mul_succ]; omega)
  rw [longer]
  split
  · next whole =>
    have count : n * (m / n) ⌈/⌉ n = m / n := smul_ceilDiv positive _
    rw [whole, Nat.add_zero] at split
    rw [split] at count
    rw [count]
  · next partly => rw [ceilDiv_eq (q := m / n) (by omega) (by rw [Nat.mul_succ]; omega)]

/-- The first `q` groups do not see what comes after them. -/
theorem fullGroups_append {n q : Nat} {xs : List β} (enough : n * q ≤ xs.length) (ys : List β) :
    (List.range q).map (fun i => ((xs ++ ys).drop (n * i)).take n) =
      (List.range q).map fun i => (xs.drop (n * i)).take n := by
  apply List.map_congr_left
  intro i hi
  have inside : n * i + n ≤ xs.length :=
    (Nat.mul_le_mul_left n (List.mem_range.mp hi)).trans enough
  rw [List.drop_append_of_le_length (by omega), List.take_append_of_le_length]
  rw [List.length_drop]
  omega

/-- The groups before the last one, and the last one. -/
theorem chunks_eq_concat {n q : Nat} {xs : List β} (lower : n * q < xs.length)
    (upper : xs.length ≤ n * (q + 1)) :
    chunks n xs = (List.range q).map (fun i => (xs.drop (n * i)).take n) ++ [xs.drop (n * q)] := by
  have all : (xs.drop (n * q)).take n = xs.drop (n * q) := by
    apply List.take_of_length_le
    rw [List.length_drop]
    rw [Nat.mul_succ] at upper
    omega
  rw [chunks, ceilDiv_eq lower upper, List.range_succ, List.map_append, List.map_singleton, all]

theorem chunks_nil (n : Nat) : chunks n ([] : List β) = [] := by
  rw [chunks, List.length_nil, zero_ceilDiv, List.range_zero, List.map_nil]

theorem chunks_concat_of_dvd {n : Nat} {xs : List β} (positive : 0 < n) (whole : n ∣ xs.length)
    (x : β) : chunks n (xs ++ [x]) = chunks n xs ++ [[x]] := by
  obtain ⟨q, length⟩ := whole
  have upper : (xs ++ [x]).length ≤ n * (q + 1) := by
    rw [List.length_append, List.length_singleton, length, Nat.mul_succ]
    omega
  have lower : n * q < (xs ++ [x]).length := by
    rw [List.length_append, List.length_singleton, length]
    omega
  have count : n * q ⌈/⌉ n = q := smul_ceilDiv positive q
  rw [chunks_eq_concat lower upper, fullGroups_append length.ge, ← length, List.drop_left, chunks,
    length, count]

theorem last_of_dvd {n : Nat} {xs : List β} (nonempty : xs ≠ []) (whole : n ∣ xs.length) :
    ∃ front last, last.length = n ∧ chunks n xs = front ++ [last] := by
  obtain ⟨q, length⟩ := whole
  have positive : 0 < n * q := length ▸ List.length_pos_of_ne_nil nonempty
  obtain ⟨q, rfl⟩ := Nat.exists_eq_succ_of_ne_zero (Nat.pos_of_mul_pos_left positive).ne'
  have lower : n * q < xs.length := by
    rw [length, Nat.mul_succ]
    exact Nat.lt_add_of_pos_right (Nat.pos_of_mul_pos_right positive)
  refine ⟨_, _, ?_, chunks_eq_concat lower length.le⟩
  rw [List.length_drop, length, Nat.mul_succ, Nat.add_sub_cancel_left]

/-- A last group that is not full takes one more element. -/
theorem chunks_concat_of_not_dvd {n : Nat} {xs : List β} (positive : 0 < n)
    (partly : ¬n ∣ xs.length) (x : β) : ∃ front last, last ≠ [] ∧ last.length < n ∧
      chunks n xs = front ++ [last] ∧ chunks n (xs ++ [x]) = front ++ [last ++ [x]] := by
  have rest : 0 < xs.length % n := Nat.pos_of_ne_zero fun h => partly (Nat.dvd_of_mod_eq_zero h)
  have split := Nat.div_add_mod xs.length n
  have short := Nat.mod_lt xs.length positive
  have lower : n * (xs.length / n) < xs.length := by omega
  have upper : xs.length + 1 ≤ n * (xs.length / n + 1) := by rw [Nat.mul_succ]; omega
  have length : (xs.drop (n * (xs.length / n))).length = xs.length % n := by
    rw [List.length_drop]
    omega
  refine ⟨_, _, List.ne_nil_of_length_pos (length ▸ rest), length ▸ short,
    chunks_eq_concat lower (Nat.le_of_succ_le upper), ?_⟩
  have longer : (xs ++ [x]).length = xs.length + 1 := List.length_append
  rw [chunks_eq_concat (lower.trans (longer ▸ Nat.lt_succ_self _)) (longer ▸ upper),
    fullGroups_append lower.le, List.drop_append_of_le_length lower.le]

theorem flatten_chunks {n : Nat} (positive : 0 < n) (xs : List β) : (chunks n xs).flatten = xs := by
  induction xs using List.reverseRecOn with
  | nil => rw [chunks_nil, List.flatten_nil]
  | append_singleton xs x ih =>
    by_cases whole : n ∣ xs.length
    · rw [chunks_concat_of_dvd positive whole, List.flatten_append, ih, List.flatten_singleton]
    · obtain ⟨front, last, -, -, before, after⟩ := chunks_concat_of_not_dvd positive whole x
      rw [before, List.flatten_append, List.flatten_singleton] at ih
      rw [after, List.flatten_append, List.flatten_singleton, ← List.append_assoc, ih]

theorem mem_of_mem_chunks {n : Nat} {xs chunk : List β} (positive : 0 < n)
    (member : chunk ∈ chunks n xs) {x : β} (inside : x ∈ chunk) : x ∈ xs := by
  rw [← flatten_chunks positive xs]
  exact List.mem_flatten.mpr ⟨chunk, member, inside⟩

theorem length_of_mem_chunks {n : Nat} {xs chunk : List β} (positive : 0 < n)
    (member : chunk ∈ chunks n xs) : 0 < chunk.length ∧ chunk.length ≤ n := by
  obtain ⟨i, hi, rfl⟩ := List.mem_map.mp member
  have inside : n * i < xs.length := by
    by_contra outside
    have := (ceilDiv_le_iff_le_mul positive).mpr (Nat.le_of_not_lt outside)
    exact absurd (List.mem_range.mp hi) (Nat.not_lt_of_le this)
  rw [List.length_take, List.length_drop]
  omega

end Chunks

end TradeBars
