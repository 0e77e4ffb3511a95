import TradeBars.TimeOrder
import Mathlib.Data.List.Pairwise
import Mathlib.Data.List.Sort

/-! Time order loses nothing, puts earlier timestamps first, keeps what bears the same
timestamp in its order, and leaves alone what is in order already. -/
namespace TradeBars

/-- The elements of a list in an order, where tied ones stay in the order of the list. -/
structure StableOrder {β : Type} (le : β → β → Bool) (ordered xs : List β) : Prop where
  perm : ordered.Perm xs
  sorted : ordered.Pairwise fun a b => le a b = true
  stable (a : β) : ordered.filter (fun b => le a b && le b a) = xs.filter fun b => le a b && le b a

theorem stableOrder_mergeSort {β : Type} {le : β → β → Bool}
    (trans : ∀ a b c, le a b = true → le b c = true → le a c = true)
    (total : ∀ a b, (le a b || le b a) = true) (xs : List β) :
    StableOrder le (xs.mergeSort le) xs where
  perm := List.mergeSort_perm xs le
  sorted := List.pairwise_mergeSort trans total xs
  stable a := by
    have tied : (xs.filter fun b => le a b && le b a).Pairwise fun b c => le b c = true := by
      apply List.pairwise_of_forall_mem_list
      intro b hb c hc
      simp only [List.mem_filter, Bool.and_eq_true] at hb hc
      exact trans b a c hb.2.2 hc.2.1
    have kept := (List.sublist_mergeSort trans total tied List.filter_sublist).filter
      fun b => le a b && le b a
    have count := ((List.mergeSort_perm xs le).filter fun b => le a b && le b a).length_eq
    simp only [List.filter_filter, Bool.and_self] at kept
    exact (kept.eq_of_length count.symm).symm

section Unique

variable {β : Type} {le : β → β → Bool} (refl : ∀ a, le a a = true)
include refl

theorem le_of_sorted {x y : β} {xs : List β}
    (sorted : (x :: xs).Pairwise fun a b => le a b = true) (member : y ∈ x :: xs) :
    le x y = true := by
  cases member with
  | head => exact refl x
  | tail _ member => exact List.rel_of_pairwise_cons sorted member

theorem eq_of_sorted {xs ys : List β} (perm : xs.Perm ys)
    (left : xs.Pairwise fun a b => le a b = true) (right : ys.Pairwise fun a b => le a b = true)
    (tied : ∀ a, xs.filter (fun b => le a b && le b a) = ys.filter fun b => le a b && le b a) :
    xs = ys := by
  induction xs generalizing ys with
  | nil => exact (List.nil_perm.mp perm).symm
  | cons x xs ih =>
    cases ys with
    | nil => exact List.perm_nil.mp perm
    | cons y ys =>
      -- either head stands first in the class of what is tied with it
      have xy : le x y = true := le_of_sorted refl left (perm.mem_iff.mpr List.mem_cons_self)
      have yx : le y x = true := le_of_sorted refl right (perm.mem_iff.mp List.mem_cons_self)
      have first := tied x
      simp only [List.filter_cons, refl, xy, yx, Bool.and_self, if_true] at first
      obtain rfl := (List.cons.inj first).1
      congr 1
      apply ih perm.cons_inv left.tail right.tail
      intro a
      have both := tied a
      simp only [List.filter_cons] at both
      split at both
      · exact (List.cons.inj both).2
      · exact both

/-- There is one stable order of a list. -/
theorem StableOrder.unique {xs ys zs : List β} (left : StableOrder le xs zs)
    (right : StableOrder le ys zs) : xs = ys :=
  eq_of_sorted refl (left.perm.trans right.perm.symm) left.sorted right.sorted
    fun a => (left.stable a).trans (right.stable a).symm

end Unique

section Combined

variable {β : Type} {le : β → β → Bool} {os os' xs ys : List β}

/-- What is later than all the rest may be put in order by itself. -/
theorem StableOrder.append (order : StableOrder le os xs) (order' : StableOrder le os' ys)
    (later : ∀ x ∈ xs, ∀ y ∈ ys, le x y = true) : StableOrder le (os ++ os') (xs ++ ys) where
  perm := order.perm.append order'.perm
  sorted := by
    refine List.pairwise_append.mpr ⟨order.sorted, order'.sorted, fun x hx y hy => ?_⟩
    exact later x (order.perm.mem_iff.mp hx) y (order'.perm.mem_iff.mp hy)
  stable a := by
    rw [List.filter_append, List.filter_append, order.stable, order'.stable]

/-- The same elements in another order, where those of one key did not change places. -/
structure Rearranged {κ : Type} [DecidableEq κ] (key : β → κ) (xs ys : List β) : Prop where
  perm : xs.Perm ys
  tied (k : κ) : xs.filter (key · = k) = ys.filter (key · = k)

variable {κ : Type} [DecidableEq κ] {key : β → κ}

/-- Where no two elements have one key, any order will do. -/
theorem rearranged_of_nodup (perm : xs.Perm ys) (distinct : (xs.map key).Nodup) :
    Rearranged key xs ys where
  perm := perm
  tied k := by
    have distinct' : (ys.map key).Nodup := (perm.map key).nodup_iff.mp distinct
    rw [List.Nodup, List.pairwise_map] at distinct distinct'
    refine List.Perm.eq_of_pairwise ?_ (distinct.filter _) (distinct'.filter _) (perm.filter _)
    intro a b left right differ
    simp only [List.mem_filter, decide_eq_true_eq] at left right
    exact absurd (left.2.trans right.2.symm) differ

theorem StableOrder.rearranged (order : StableOrder le os xs)
    (ties : ∀ a b, (le a b && le b a) = decide (key b = key a)) (same : Rearranged key xs ys) :
    StableOrder le os ys where
  perm := order.perm.trans same.perm
  sorted := order.sorted
  stable a := by
    rw [order.stable]
    simp only [ties]
    exact same.tied (key a)

end Combined

namespace TimeOrder

variable {β : Type} (timestamp : β → Int)

theorem stableOrder_inTimeOrder (xs : List β) :
    StableOrder (fun a b => timestamp a ≤ timestamp b) (inTimeOrder timestamp xs) xs := by
  apply stableOrder_mergeSort
  · simp only [decide_eq_true_eq]
    exact fun _ _ _ => Int.le_trans
  · simp only [Bool.or_eq_true, decide_eq_true_eq]
    exact fun _ _ => Int.le_total _ _

theorem eq_inTimeOrder {xs ys : List β}
    (order : StableOrder (fun a b => timestamp a ≤ timestamp b) ys xs) :
    ys = inTimeOrder timestamp xs := by
  refine StableOrder.unique ?_ order (stableOrder_inTimeOrder timestamp xs)
  intro a
  exact decide_eq_true (Int.le_refl _)

theorem mem_inTimeOrder {xs : List β} {x : β} : x ∈ inTimeOrder timestamp xs ↔ x ∈ xs :=
  List.mem_mergeSort

theorem pairwise_inTimeOrder (xs : List β) :
    (inTimeOrder timestamp xs).Pairwise (timestamp · ≤ timestamp ·) := by
  simpa only [decide_eq_true_eq] using (stableOrder_inTimeOrder timestamp xs).sorted

theorem inTimeOrder_of_pairwise {xs : List β} (sorted : xs.Pairwise (timestamp · ≤ timestamp ·)) :
    inTimeOrder timestamp xs = xs :=
  List.mergeSort_of_pairwise (by simpa using sorted)

theorem map_inTimeOrder {γ : Type} (time : γ → Int) (f : β → γ) (xs : List β) :
    (inTimeOrder (fun x => time (f x)) xs).map f = inTimeOrder time (xs.map f) :=
  List.map_mergeSort fun _ _ _ _ => rfl

theorem tied_eq (s t : Int) : (decide (s ≤ t) && decide (t ≤ s)) = decide (t = s) := by
  grind

theorem inTimeOrder_append {xs ys : List β}
    (later : ∀ x ∈ xs, ∀ y ∈ ys, timestamp x ≤ timestamp y) :
    inTimeOrder timestamp (xs ++ ys) = inTimeOrder timestamp xs ++ inTimeOrder timestamp ys := by
  symm
  apply eq_inTimeOrder
  apply (stableOrder_inTimeOrder timestamp xs).append (stableOrder_inTimeOrder timestamp ys)
  simpa only [decide_eq_true_eq] using later

theorem inTimeOrder_rearranged {xs ys : List β} (same : Rearranged timestamp xs ys) :
    inTimeOrder timestamp xs = inTimeOrder timestamp ys := by
  apply eq_inTimeOrder
  exact (stableOrder_inTimeOrder timestamp xs).rearranged (fun _ _ => tied_eq _ _) same

/-- What bears one timestamp keeps its order. -/
theorem filter_inTimeOrder (time : Int) (xs : List β) :
    (inTimeOrder timestamp xs).filter (timestamp · = time) = xs.filter (timestamp · = time) := by
  have order := stableOrder_inTimeOrder timestamp xs
  by_cases occurs : ∃ x ∈ xs, timestamp x = time
  · obtain ⟨x, -, rfl⟩ := occurs
    simpa only [tied_eq] using order.stable x
  · have noneAtTime : xs.filter (timestamp · = time) = [] := by
      rw [List.filter_eq_nil_iff]
      intro x member
      simpa using fun same => occurs ⟨x, member, same⟩
    have both := (order.perm.filter (timestamp · = time)).trans (.of_eq noneAtTime)
    rw [noneAtTime, both.eq_nil]

/-- Elements may be left out before the rest is put in order, or after it. -/
theorem filterMap_inTimeOrder {γ : Type} {time : γ → Int} {f : β → Option γ}
    (keeps : ∀ x y, f x = some y → time y = timestamp x) (xs : List β) :
    (inTimeOrder timestamp xs).filterMap f = inTimeOrder time (xs.filterMap f) := by
  have order := stableOrder_inTimeOrder timestamp xs
  apply eq_inTimeOrder
  refine ⟨order.perm.filterMap f, ?_, ?_⟩
  · rw [List.pairwise_filterMap]
    apply order.sorted.imp
    intro x x' le y found y' found'
    rw [keeps x y found, keeps x' y' found']
    exact le
  · intro z
    have tied (ys : List β) :
        (ys.filterMap f).filter (fun y => decide (time z ≤ time y) && decide (time y ≤ time z)) =
          (ys.filter (timestamp · = time z)).filterMap f := by
      rw [List.filter_filterMap, List.filterMap_filter]
      apply List.filterMap_congr
      intro x _
      cases found : f x with
      | none => simp
      | some y =>
        simp only [tied_eq, keeps x y found, Option.filter_some]
    rw [tied, tied, filter_inTimeOrder]

end TimeOrder

end TradeBars
