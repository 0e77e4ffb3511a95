import TradeBars.Proofs.Newest
import TradeBars.Ring
import Mathlib.Data.Nat.ModEq

/-! A ring against the list it stands for. `Holds` reads the slots from the head on:
first the elements of the list, then nothing. Every operation is one on that list,
wherever the head stands; no index leaves the slots. -/
namespace TradeBars.Ring

open Newest

variable {β : Type}

structure Holds (r : Ring β) (xs : List β) : Prop where
  head_lt : r.head < r.capacity
  size_eq : r.size = xs.length
  length_le : xs.length ≤ r.capacity
  slots_eq : ∀ i < r.capacity, r.slots[r.slot i]? = some xs[i]?

/-- The slots of the elements are occupied and all others are not. -/
structure Valid (r : Ring β) : Prop where
  head_lt : r.head < r.capacity
  size_le : r.size ≤ r.capacity
  occupied : ∀ i < r.size, ∃ x, r.slots[r.slot i]? = some (some x)
  vacant : ∀ p < r.capacity, (∀ i < r.size, r.slot i ≠ p) → r.slots[p]? = some none

theorem slot_lt {r : Ring β} (h : r.head < r.capacity) (i : Nat) : r.slot i < r.slots.size :=
  Nat.mod_lt _ (Nat.zero_lt_of_lt h)

theorem slot_zero {r : Ring β} (h : r.head < r.capacity) : r.slot 0 = r.head :=
  Nat.mod_eq_of_lt h

theorem slot_inj {r : Ring β} {i j : Nat} (hi : i < r.capacity) (hj : j < r.capacity) :
    r.slot i = r.slot j ↔ i = j := by
  constructor
  · intro same
    exact (Nat.ModEq.add_left_cancel' r.head same).eq_of_lt_of_lt hi hj
  · exact congrArg r.slot

theorem slot_surj {r : Ring β} (h : r.head < r.capacity) {p : Nat} (hp : p < r.capacity) :
    ∃ i < r.capacity, r.slot i = p := by
  refine ⟨(p + r.capacity - r.head) % r.capacity, Nat.mod_lt _ (Nat.zero_lt_of_lt h), ?_⟩
  rw [slot, Nat.add_mod_mod, show r.head + (p + r.capacity - r.head) = p + r.capacity by omega,
    Nat.add_mod_right, Nat.mod_eq_of_lt hp]

/-- Where the slots are once the head has moved to the slot of the `k`-th element. -/
theorem slot_of_head {r s : Ring β} {k : Nat} (capacity : s.capacity = r.capacity)
    (head : s.head = r.slot k) (i : Nat) : s.slot i = r.slot ((k + i) % r.capacity) := by
  rw [slot, head, capacity, slot, slot, Nat.mod_add_mod, Nat.add_mod_mod, Nat.add_assoc]

theorem filterMap_getElem?_range (xs : List β) (n : Nat) :
    (List.range n).filterMap (fun i => xs[i]?) = xs.take n := by
  induction n with
  | zero => rfl
  | succ n ih =>
    rw [List.range_succ, List.filterMap_append, ih, List.take_add_one, List.filterMap_cons]
    cases xs[n]? <;> rfl

@[simp] theorem capacity_pushBack (r : Ring β) (x : β) :
    (r.pushBack x).2.capacity = r.capacity := by
  unfold pushBack
  split <;> exact Array.size_setIfInBounds

@[simp] theorem capacity_modifyLast (r : Ring β) (f : β → β) :
    (r.modifyLast f).capacity = r.capacity := by
  unfold modifyLast
  split
  · exact Array.size_modify
  · rfl

@[simp] theorem head_modifyLast (r : Ring β) (f : β → β) : (r.modifyLast f).head = r.head := by
  unfold modifyLast
  split <;> rfl

@[simp] theorem capacity_empty (capacity : Nat) : (empty capacity : Ring β).capacity = capacity :=
  Array.size_replicate

namespace Holds

variable {r : Ring β} {xs : List β}

theorem empty {capacity : Nat} (positive : 0 < capacity) :
    (Ring.empty capacity).Holds ([] : List β) where
  head_lt := by simpa [Ring.empty, Ring.capacity] using positive
  size_eq := rfl
  length_le := Nat.zero_le _
  slots_eq i hi := by
    have inside := slot_lt (r := (Ring.empty capacity : Ring β)) (Nat.zero_lt_of_lt hi) i
    simp only [Ring.empty, Array.size_replicate] at inside
    simp [Ring.empty, inside]

theorem get?_eq (holds : r.Holds xs) (i : Nat) : r.get? i = xs[i]? := by
  unfold Ring.get?
  split
  · next lt =>
    rw [holds.slots_eq i (lt.trans_le (holds.size_eq ▸ holds.length_le)), Option.join_some]
  · next le => rw [List.getElem?_eq_none (by rw [← holds.size_eq]; omega)]

theorem toList_eq (holds : r.Holds xs) : r.toList = xs := by
  have reads : r.get? = fun i => xs[i]? := funext holds.get?_eq
  rw [toList, reads, filterMap_getElem?_range, holds.size_eq, List.take_length]

theorem first?_eq (holds : r.Holds xs) : r.first? = xs.head? := by
  rw [first?, holds.get?_eq, List.head?_eq_getElem?]

theorem lastIndex?_eq (holds : r.Holds xs) :
    r.lastIndex? = if xs.length = 0 then none else some (xs.length - 1) := by
  rw [lastIndex?, holds.size_eq]

theorem last?_eq (holds : r.Holds xs) : r.last? = xs.getLast? := by
  rw [last?, holds.lastIndex?_eq]
  split
  · next empty => rw [List.length_eq_zero_iff.mp empty]; rfl
  · rw [Option.bind_some, holds.get?_eq, List.getLast?_eq_getElem?]

theorem isFull_iff (holds : r.Holds xs) : r.isFull = true ↔ xs.length = r.capacity := by
  rw [isFull, beq_iff_eq, holds.size_eq]

theorem remaining_eq (holds : r.Holds xs) : r.remaining = r.capacity - xs.length := by
  rw [remaining, holds.size_eq]

theorem clear (holds : r.Holds xs) : r.clear.Holds [] :=
  empty (Nat.zero_lt_of_lt holds.head_lt)

theorem modifyLast (holds : r.Holds xs) (f : β → β) : (r.modifyLast f).Holds (xs.modifyLast f) := by
  unfold Ring.modifyLast
  rw [holds.lastIndex?_eq]
  by_cases empty : xs.length = 0
  · obtain rfl := List.length_eq_zero_iff.mp empty
    exact holds
  simp only [if_neg empty]
  refine ⟨by simpa [capacity] using holds.head_lt, ?_, ?_, ?_⟩
  · rw [length_modifyLast, ← holds.size_eq]
  · simpa [capacity, length_modifyLast] using holds.length_le
  · intro i hi
    simp only [capacity, Array.size_modify] at hi
    have last : xs.length - 1 < r.capacity := by have := holds.length_le; omega
    have same : slot { r with slots := r.slots.modify (r.slot (xs.length - 1)) (·.map f) } i =
        r.slot i := by simp only [slot, capacity, Array.size_modify]
    rw [same, Array.getElem?_modify, holds.slots_eq i hi, getElem?_modifyLast]
    simp only [slot_inj last hi]
    split <;> split <;> first | rfl | omega

/-- The slot of one element is written and the head moves to the slot of another. -/
theorem write (holds : r.Holds xs) (ys : List β) {j k : Nat} {x : β} (hj : j < r.capacity)
    (length_le : ys.length ≤ r.capacity)
    (reads : ∀ i < r.capacity,
      ys[i]? = if (k + i) % r.capacity = j then some x else xs[(k + i) % r.capacity]?) :
    Holds ⟨r.slots.setIfInBounds (r.slot j) (some x), r.slot k, ys.length⟩ ys := by
  have capacity :
      Ring.capacity ⟨r.slots.setIfInBounds (r.slot j) (some x), r.slot k, ys.length⟩ = r.capacity :=
    Array.size_setIfInBounds
  refine ⟨capacity.symm ▸ slot_lt holds.head_lt k, rfl, capacity.symm ▸ length_le, ?_⟩
  intro i hi
  have hi' : (k + i) % r.capacity < r.capacity := Nat.mod_lt _ (Nat.zero_lt_of_lt hj)
  rw [slot_of_head capacity rfl, Array.getElem?_setIfInBounds, if_pos (slot_lt holds.head_lt j),
    holds.slots_eq _ hi', reads i (capacity ▸ hi)]
  simp only [slot_inj hj hi', eq_comm (a := j)]
  split <;> rfl

/-- A full ring gives up its first element and takes the new one into that slot. -/
theorem pushBack_of_full (holds : r.Holds xs) (full : xs.length = r.capacity) (x : β) :
    (r.pushBack x).1 = xs.head? ∧ (r.pushBack x).2.Holds (xs.tail ++ [x]) := by
  have positive : 0 < r.capacity := Nat.zero_lt_of_lt holds.head_lt
  have first : r.slot 0 = r.head := slot_zero holds.head_lt
  have length : (xs.tail ++ [x]).length = r.size := by
    rw [List.length_append, List.length_tail, List.length_singleton, holds.size_eq]
    omega
  rw [pushBack, if_pos (holds.isFull_iff.mpr full)]
  constructor
  · rw [← first, holds.slots_eq 0 positive, Option.join_some, List.head?_eq_getElem?]
  have written := holds.write (xs.tail ++ [x]) (j := 0) (k := 1) (x := x) positive
    (by rw [length, holds.size_eq]; exact holds.length_le) (by
      intro i hi
      by_cases wraps : 1 + i = r.capacity
      · rw [wraps, Nat.mod_self, if_pos rfl]
        grind
      · rw [Nat.mod_eq_of_lt (by omega), if_neg (by omega)]
        grind)
  rw [length, first] at written
  exact written

theorem pushBack_of_lt (holds : r.Holds xs) (room : xs.length < r.capacity) (x : β) :
    (r.pushBack x).1 = none ∧ (r.pushBack x).2.Holds (xs ++ [x]) := by
  have notFull : ¬r.isFull = true := fun full => room.ne (holds.isFull_iff.mp full)
  have length : (xs ++ [x]).length = r.size + 1 := by
    rw [List.length_append, List.length_singleton, holds.size_eq]
  rw [pushBack, if_neg notFull]
  refine ⟨rfl, ?_⟩
  have written := holds.write (xs ++ [x]) (j := r.size) (k := 0) (x := x)
    (by rw [holds.size_eq]; exact room) (by rw [length, holds.size_eq]; exact room) (by
      intro i hi
      rw [Nat.zero_add, Nat.mod_eq_of_lt hi, holds.size_eq]
      grind)
  rw [length, slot_zero holds.head_lt] at written
  exact written

theorem pushFront?_of_full (holds : r.Holds xs) (full : xs.length = r.capacity) (x : β) :
    r.pushFront? x = none := by
  rw [pushFront?, if_pos (holds.isFull_iff.mpr full)]

theorem pushFront?_of_lt (holds : r.Holds xs) (room : xs.length < r.capacity) (x : β) :
    ∃ s, r.pushFront? x = some s ∧ s.capacity = r.capacity ∧ s.Holds (x :: xs) := by
  have positive : 0 < r.capacity := Nat.zero_lt_of_lt room
  have notFull : ¬r.isFull = true := fun full => room.ne (holds.isFull_iff.mp full)
  have head : (r.head + r.capacity - 1) % r.capacity = r.slot (r.capacity - 1) := by
    rw [slot, Nat.add_sub_assoc positive]
  rw [pushFront?, if_neg notFull]
  refine ⟨_, rfl, Array.size_setIfInBounds, ?_⟩
  have written := holds.write (x :: xs) (j := r.capacity - 1) (k := r.capacity - 1) (x := x)
    (Nat.sub_lt positive Nat.one_pos) room (by
      intro i hi
      cases i with
      | zero =>
        rw [Nat.add_zero, Nat.mod_eq_of_lt (Nat.sub_lt positive Nat.one_pos), if_pos rfl]
        rfl
      | succ i =>
        rw [show r.capacity - 1 + (i + 1) = r.capacity + i by omega, Nat.add_mod_left,
          Nat.mod_eq_of_lt (by omega), if_neg (by omega), List.getElem?_cons_succ])
  rw [List.length_cons, ← holds.size_eq, ← head] at written
  exact written

theorem pushBack (holds : r.Holds xs) (x : β) :
    (r.pushBack x).2.Holds ((xs ++ [x]).rtake r.capacity) := by
  obtain full | room := holds.length_le.eq_or_lt
  · have kept : (xs ++ [x]).rtake r.capacity = xs.tail ++ [x] := by
      cases xs with
      | nil => exact absurd (full ▸ holds.head_lt) (Nat.not_lt_zero _)
      | cons first rest =>
        rw [← full, List.rtake, List.length_append, Nat.add_sub_cancel_left]
        rfl
    rw [kept]
    exact (holds.pushBack_of_full full x).2
  · have kept : (xs ++ [x]).rtake r.capacity = xs ++ [x] :=
      rtake_of_length_le (by rw [List.length_append]; exact room)
    rw [kept]
    exact (holds.pushBack_of_lt room x).2

/-- There is one ring with a list, for each place of the head. -/
theorem eq_of_head {s : Ring β} (holds : r.Holds xs) (other : s.Holds xs)
    (capacity : s.capacity = r.capacity) (head : s.head = r.head) : s = r := by
  have slots : s.slots = r.slots := by
    apply Array.ext_getElem?
    intro p
    by_cases inside : p < r.capacity
    · obtain ⟨i, hi, rfl⟩ := slot_surj holds.head_lt inside
      have same : s.slot i = r.slot i := by simp only [slot, head, capacity]
      rw [holds.slots_eq i hi, ← same, other.slots_eq i (capacity ▸ hi)]
    · have outside : r.slots.size ≤ p := Nat.le_of_not_lt inside
      have outside' : s.slots.size ≤ p := capacity.trans_le outside
      simp [outside, outside']
  have size : s.size = r.size := other.size_eq.trans holds.size_eq.symm
  cases r
  cases s
  simp_all

theorem modifyLast_last {x : β} (holds : r.Holds xs) (last : r.last? = some x) :
    r.modifyLast (fun _ => x) = r := by
  apply holds.eq_of_head _ (capacity_modifyLast r _) (head_modifyLast r _)
  obtain ⟨older, rfl⟩ := List.getLast?_eq_some_iff.mp (holds.last?_eq ▸ last)
  simpa only [List.modifyLast_concat] using holds.modifyLast fun _ => x

theorem valid (holds : r.Holds xs) : r.Valid where
  head_lt := holds.head_lt
  size_le := holds.size_eq ▸ holds.length_le
  occupied i hi := by
    rw [holds.size_eq] at hi
    refine ⟨xs[i], ?_⟩
    rw [holds.slots_eq i (hi.trans_le holds.length_le), List.getElem?_eq_getElem hi]
  vacant p hp unused := by
    obtain ⟨i, hi, rfl⟩ := slot_surj holds.head_lt hp
    have outside : xs.length ≤ i := by
      by_contra inside
      exact unused i (by rw [holds.size_eq]; omega) rfl
    rw [holds.slots_eq i hi, List.getElem?_eq_none outside]

end Holds

theorem Valid.holds {r : Ring β} (valid : r.Valid) : r.Holds r.toList := by
  choose element occupied using valid.occupied
  have held : r.Holds (List.ofFn fun i : Fin r.size => element i i.isLt) := by
    refine ⟨valid.head_lt, by rw [List.length_ofFn], ?_, ?_⟩
    · rw [List.length_ofFn]
      exact valid.size_le
    · intro i hi
      by_cases inside : i < r.size
      · rw [occupied i inside, List.getElem?_ofFn, dif_pos inside]
      · rw [List.getElem?_eq_none (by rw [List.length_ofFn]; omega)]
        apply valid.vacant _ (slot_lt valid.head_lt i)
        intro j hj same
        have := (slot_inj (hj.trans_le valid.size_le) hi).mp same
        omega
  rw [held.toList_eq]
  exact held

end TradeBars.Ring
