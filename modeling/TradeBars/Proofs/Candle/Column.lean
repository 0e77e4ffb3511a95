import TradeBars.Candle.Resample
import TradeBars.Proofs.Scalar.Laws
import Mathlib.Data.List.Induction

/-! What a column of candles comes to. A bucket that takes candles in one by one folds the values
of each column from the first one on with an associative operation: the first of two, the last, the
greater, the lesser, and in exact arithmetic the sum. So candles may be put together in several
steps. -/
namespace TradeBars.Candle

section FoldFirst

variable {β : Type} (f : β → β → β)

/-- Values folded from the first one on. -/
def foldFirst? : List β → Option β
  | [] => none
  | x :: xs => some (xs.foldl f x)

@[simp] theorem foldFirst?_eq_none {xs : List β} : foldFirst? f xs = none ↔ xs = [] := by
  cases xs <;> simp [foldFirst?]

theorem foldFirst?_append [Std.Associative f] (xs ys : List β) :
    foldFirst? f (xs ++ ys) = (foldFirst? f xs).merge f (foldFirst? f ys) := by
  cases xs with
  | nil => cases ys <;> rfl
  | cons x xs =>
    cases ys with
    | nil => simp [foldFirst?]
    | cons y ys => simp [foldFirst?, ← List.foldl_assoc]

theorem foldFirst?_concat (xs : List β) (x : Option β) :
    foldFirst? f (xs ++ x.toList) = (foldFirst? f xs).merge f x := by
  cases xs <;> cases x <;> simp [foldFirst?]

theorem foldFirst?_flatten [Std.Associative f] (xss : List (List β)) :
    foldFirst? f xss.flatten = foldFirst? f (xss.filterMap (foldFirst? f)) := by
  induction xss with
  | nil => rfl
  | cons xs xss ih =>
    rw [List.flatten_cons, foldFirst?_append, ih]
    cases value : foldFirst? f xs with
    | none => simp [value]
    | some x =>
      rw [List.filterMap_cons_some value]
      exact (foldFirst?_append f [x] _).symm

instance : Std.Associative (fun a _ : β => a) := ⟨fun _ _ _ => rfl⟩

instance : Std.Associative (fun _ b : β => b) := ⟨fun _ _ _ => rfl⟩

theorem foldFirst?_fst (xs : List β) : foldFirst? (fun a _ => a) xs = xs.head? := by
  cases xs with
  | nil => rfl
  | cons x xs => induction xs with
    | nil => rfl
    | cons y ys ih => exact ih

theorem foldFirst?_snd (xs : List β) : foldFirst? (fun _ b => b) xs = xs.getLast? := by
  induction xs using List.reverseRecOn with
  | nil => rfl
  | append_singleton xs x =>
    rw [foldFirst?_append, List.getLast?_concat]
    cases foldFirst? _ xs <;> rfl

end FoldFirst

section Column

variable {α : Type} [Scalar α] {get : Candle α → Option α}

/-- The values of one column that are there. -/
def column (get : Candle α → Option α) (cs : List (Candle α)) : List α :=
  cs.filterMap fun c => Scalar.present (get c)

theorem column_concat (cs : List (Candle α)) (c : Candle α) :
    column get (cs ++ [c]) = column get cs ++ (Scalar.present (get c)).toList := by
  rw [column, List.filterMap_append, List.filterMap_cons]
  cases Scalar.present (get c) <;> rfl

theorem isNaN_of_mem_column {cs : List (Candle α)} {x : α} (member : x ∈ column get cs) :
    Scalar.isNaN x = false := by
  obtain ⟨c, -, found⟩ := List.mem_filterMap.mp member
  exact Scalar.isNaN_of_present found

theorem column_flatten (css : List (List (Candle α))) :
    column get css.flatten = (css.map (column get)).flatten := List.filterMap_flatten

def KeepsNumbers (f : α → α → α) : Prop :=
  ∀ a b, Scalar.isNaN a = false → Scalar.isNaN b = false → Scalar.isNaN (f a b) = false

theorem keepsNumbers_larger : KeepsNumbers (Scalar.larger : α → α → α) := by
  rw [Scalar.larger_eq_pick]
  exact fun _ _ => Scalar.isNaN_pick _

theorem keepsNumbers_smaller : KeepsNumbers (Scalar.smaller : α → α → α) := by
  rw [Scalar.smaller_eq_pick]
  exact fun _ _ => Scalar.isNaN_pick _

theorem present_foldFirst? {f : α → α → α} (keeps : KeepsNumbers f) {xs : List α}
    (numbers : ∀ x ∈ xs, Scalar.isNaN x = false) :
    Scalar.present (foldFirst? f xs) = foldFirst? f xs := by
  cases xs with
  | nil => rfl
  | cons x xs =>
    apply Scalar.present_of_number
    induction xs generalizing x with
    | nil => exact numbers x List.mem_cons_self
    | cons y ys ih =>
      apply ih
      simp only [List.mem_cons, forall_eq_or_imp] at numbers ⊢
      exact ⟨keeps _ _ numbers.1 numbers.2.1, numbers.2.2⟩

/-- Candles that stand for parts of a list give a column what the whole list gives it. -/
theorem foldFirst?_column_parts (get : Candle α → Option α) (f : α → α → α) [Std.Associative f]
    (keeps : KeepsNumbers f) {ι : Type} (whole : ι → Candle α) (part : ι → List (Candle α))
    (folded : ∀ i, get (whole i) = foldFirst? f (column get (part i))) (is : List ι) :
    foldFirst? f (column get (is.map whole)) =
      foldFirst? f (column get (is.map part).flatten) := by
  have values (i : ι) : Scalar.present (get (whole i)) = foldFirst? f (column get (part i)) := by
    rw [folded, present_foldFirst? keeps fun _ => isNaN_of_mem_column]
  calc foldFirst? f (column get (is.map whole))
    _ = foldFirst? f (is.filterMap fun i => foldFirst? f (column get (part i))) := by
      simp only [column, List.filterMap_map, Function.comp_def, values]
    _ = foldFirst? f ((is.map fun i => column get (part i)).filterMap (foldFirst? f)) := by
      rw [List.filterMap_map]
      rfl
    _ = foldFirst? f (is.map fun i => column get (part i)).flatten := by
      rw [foldFirst?_flatten]
    _ = foldFirst? f (column get (is.map part).flatten) := by
      rw [column_flatten, List.map_map]
      rfl

end Column

section Extreme

variable {α : Type} [Scalar α]

/-- What a test picks out of a list stands in a relation to all of it, if the test decides
the relation for two of them. -/
theorem foldl_pick {r : α → α → Prop} {test : α → α → Bool} (refl : ∀ a, r a a)
    (trans : ∀ a b c, Scalar.isNaN b = false → r a b → r b c → r a c)
    (first : ∀ a b, test a b = true → r a b) (second : ∀ a b, test a b = false → r b a)
    (xs : List α) (a : α) (numbers : ∀ x ∈ a :: xs, Scalar.isNaN x = false) :
    xs.foldl (Scalar.pick test) a ∈ a :: xs ∧
      ∀ x ∈ a :: xs, r (xs.foldl (Scalar.pick test) a) x := by
  induction xs generalizing a with
  | nil => simp [refl]
  | cons y ys ih =>
    simp only [List.mem_cons, forall_eq_or_imp] at numbers
    obtain ⟨left, right, others⟩ := numbers
    have picked := Scalar.isNaN_pick test left right
    have bounds : r (Scalar.pick test a y) a ∧ r (Scalar.pick test a y) y := by
      rw [Scalar.pick_of_numbers test left right]
      cases decided : test a y with
      | true => exact ⟨refl a, first a y decided⟩
      | false => exact ⟨second a y decided, refl y⟩
    obtain ⟨member, all⟩ := ih (Scalar.pick test a y) (by simpa using ⟨picked, others⟩)
    simp only [List.mem_cons, forall_eq_or_imp] at member all ⊢
    refine ⟨?_, trans _ _ _ picked all.1 bounds.1, trans _ _ _ picked all.1 bounds.2, all.2⟩
    cases member with
    | inl same =>
      rw [List.foldl_cons, same]
      exact (Scalar.pick_eq_or test a y).imp_right .inl
    | inr later => exact .inr (.inr later)

variable [LawfulScalar α]

theorem greatest_of_foldFirst? {xs : List α} (numbers : ∀ x ∈ xs, Scalar.isNaN x = false)
    {m : α} (found : foldFirst? Scalar.larger xs = some m) :
    m ∈ xs ∧ ∀ x ∈ xs, Scalar.lt m x = false := by
  cases xs with
  | nil => contradiction
  | cons x xs =>
    cases found
    rw [Scalar.larger_eq_pick]
    apply foldl_pick (r := fun a b => Scalar.lt a b = false) Scalar.not_lt_self
    · exact fun _ _ _ => Scalar.not_lt_trans
    · exact fun _ _ => LawfulScalar.lt_asymm
    · exact fun _ _ => id
    · exact numbers

theorem least_of_foldFirst? {xs : List α} (numbers : ∀ x ∈ xs, Scalar.isNaN x = false)
    {m : α} (found : foldFirst? Scalar.smaller xs = some m) :
    m ∈ xs ∧ ∀ x ∈ xs, Scalar.lt x m = false := by
  cases xs with
  | nil => contradiction
  | cons x xs =>
    cases found
    rw [Scalar.smaller_eq_pick]
    apply foldl_pick (r := fun a b => Scalar.lt b a = false) Scalar.not_lt_self
    · exact fun _ _ _ number ab bc => Scalar.not_lt_trans number bc ab
    · intro a b picked
      simpa using picked
    · intro a b picked
      rw [Bool.not_eq_false'] at picked
      exact LawfulScalar.lt_asymm picked
    · exact numbers

end Extreme

section Summary

variable {α : Type}

/-- All of a candle but its volume. -/
def timedPrices (c : Candle α) : Instant × Option α × Option α × Option α × Option α :=
  (c.openTime, c.openPrice, c.high, c.low, c.close)

theorem eq_of_timedPrices {c d : Candle α} (prices : timedPrices c = timedPrices d)
    (volume : c.volume = d.volume) : c = d := by
  cases c
  cases d
  simp only [timedPrices, Prod.mk.injEq] at prices
  obtain ⟨rfl, rfl, rfl, rfl, rfl⟩ := prices
  cases volume
  rfl

variable [Scalar α]

/-- A candle has the values of several others, column by column. -/
structure Columns (bar : Candle α) (cs : List (Candle α)) : Prop where
  openPrice : bar.openPrice = (column (·.openPrice) cs).head?
  high : bar.high = foldFirst? Scalar.larger (column (·.high) cs)
  low : bar.low = foldFirst? Scalar.smaller (column (·.low) cs)
  close : bar.close = (column (·.close) cs).getLast?
  volume : bar.volume =
    if (column (·.volume) cs).isEmpty then none else some (Scalar.sum (column (·.volume) cs))

theorem columns_blank (openTime : Instant) : Columns (blank openTime : Candle α) [] :=
  ⟨rfl, rfl, rfl, rfl, rfl⟩

/-- One more candle adds its values to the columns, each for itself. -/
theorem Columns.add {bar : Candle α} {cs : List (Candle α)} (columns : Columns bar cs)
    (c : Candle α) : Columns (bar.add c) (cs ++ [c]) where
  openPrice := by
    rw [Candle.add, columns.openPrice, column_concat, List.head?_append, Option.head?_toList]
  high := by
    rw [Candle.add, columns.high, column_concat, foldFirst?_concat]
  low := by
    rw [Candle.add, columns.low, column_concat, foldFirst?_concat]
  close := by
    rw [Candle.add, columns.close, column_concat, List.getLast?_append]
    cases Scalar.present c.close <;> rfl
  volume := by
    have gathered : bar.volume.getD 0 = Scalar.sum (column (·.volume) cs) := by
      rw [columns.volume]
      cases column (·.volume) cs <;> rfl
    rw [Candle.add, gathered, column_concat]
    cases Scalar.present c.volume with
    | none => simpa using columns.volume
    | some v => simp [Scalar.sum_concat]

theorem summary_concat (openTime : Instant) (cs : List (Candle α)) (c : Candle α) :
    summary openTime (cs ++ [c]) = (summary openTime cs).add c := List.foldl_append

theorem columns_summary (openTime : Instant) (cs : List (Candle α)) :
    Columns (summary openTime cs) cs := by
  induction cs using List.reverseRecOn with
  | nil => exact columns_blank openTime
  | append_singleton cs c ih =>
    rw [summary_concat]
    exact ih.add c

theorem openTime_summary (openTime : Instant) (cs : List (Candle α)) :
    (summary openTime cs).openTime = openTime := by
  induction cs using List.reverseRecOn with
  | nil => rfl
  | append_singleton cs c ih =>
    rw [summary_concat]
    exact ih

theorem volume_summary [ExactScalar α] (openTime : Instant) (cs : List (Candle α)) :
    (summary openTime cs).volume = foldFirst? (fun a b => a + b) (column (·.volume) cs) := by
  rw [(columns_summary openTime cs).volume]
  cases column (·.volume) cs with
  | nil => rfl
  | cons v vs => simp [foldFirst?, Scalar.sum, ExactScalar.zero_add]

variable {ι : Type} (openTime : Instant) (time : ι → Instant) (part : ι → List (Candle α))
  (is : List ι)

theorem timedPrices_summary_parts [LawfulScalar α] :
    timedPrices (summary openTime (is.map fun i => summary (time i) (part i))) =
      timedPrices (summary openTime (is.map part).flatten) := by
  let whole (i : ι) := summary (time i) (part i)
  have columns (i : ι) : Columns (whole i) (part i) := columns_summary _ _
  have openPrice := foldFirst?_column_parts (·.openPrice) (fun a _ => a) (fun _ _ left _ => left)
    whole part (fun i => (columns i).openPrice.trans (foldFirst?_fst _).symm) is
  have high := foldFirst?_column_parts (·.high) Scalar.larger keepsNumbers_larger whole part
    (fun i => (columns i).high) is
  have low := foldFirst?_column_parts (·.low) Scalar.smaller keepsNumbers_smaller whole part
    (fun i => (columns i).low) is
  have close := foldFirst?_column_parts (·.close) (fun _ b => b) (fun _ _ _ right => right)
    whole part (fun i => (columns i).close.trans (foldFirst?_snd _).symm) is
  rw [foldFirst?_fst, foldFirst?_fst] at openPrice
  rw [foldFirst?_snd, foldFirst?_snd] at close
  have twice := columns_summary openTime (is.map whole)
  have once := columns_summary openTime (is.map part).flatten
  simp only [timedPrices, openTime_summary, Prod.mk.injEq, true_and]
  exact ⟨twice.openPrice.trans (openPrice.trans once.openPrice.symm),
    twice.high.trans (high.trans once.high.symm), twice.low.trans (low.trans once.low.symm),
    twice.close.trans (close.trans once.close.symm)⟩

theorem volume_summary_parts [ExactScalar α] :
    (summary openTime (is.map fun i => summary (time i) (part i))).volume =
      (summary openTime (is.map part).flatten).volume := by
  rw [volume_summary, volume_summary]
  exact foldFirst?_column_parts (·.volume) (fun a b => a + b)
    (fun _ _ _ _ => ExactScalar.isNaN_eq _) (fun i => summary (time i) (part i)) part
    (fun _ => volume_summary _ _) is

end Summary

end TradeBars.Candle
