import TradeBars.Proofs.Candle.Regrouping
import TradeBars.Proofs.Ohlcv.DollarBars
import TradeBars.Proofs.Ohlcv.TickBars

/-! The order of archived data does not matter, as far as data of one time stay in their order:
every converter puts them in the order of time first, or does what comes to the same. Its bars
come out in the order of time as well, for each of them has the time of something that went in. -/
namespace TradeBars

/-- A conversion that takes its data in any order and gives bars in theirs. -/
structure OrderFree {β γ κ : Type} [DecidableEq κ] (key : β → κ) (earlier : γ → γ → Prop)
    (convert : List β → Except Fault (List γ)) : Prop where
  rearranged {xs ys : List β} : Rearranged key xs ys → convert xs = convert ys
  distinct {xs ys : List β} : xs.Perm ys → (xs.map key).Nodup → convert xs = convert ys
  ordered {xs : List β} {bars : List γ} : convert xs = .ok bars → bars.Pairwise earlier

theorem OrderFree.of_rearranged {β γ κ : Type} [DecidableEq κ] {key : β → κ}
    {earlier : γ → γ → Prop} {convert : List β → Except Fault (List γ)}
    (rearranged : ∀ xs ys, Rearranged key xs ys → convert xs = convert ys)
    (ordered : ∀ xs bars, convert xs = .ok bars → bars.Pairwise earlier) :
    OrderFree key earlier convert where
  rearranged := rearranged _ _
  distinct := fun perm distinct => rearranged _ _ (rearranged_of_nodup perm distinct)
  ordered := ordered _ _

namespace Ohlcv

variable {α : Type} [Scalar α]

theorem Run.timestamp_of_push {r after : Run α} {threshold : α} {e : Entry α} {bar : Ohlcv α}
    (pushed : r.push threshold e = (some bar, after)) : bar.timestamp = e.timestamp := by
  unfold Run.push at pushed
  dsimp only at pushed
  split at pushed
  · cases pushed
  · cases pushed
    rfl

/-- Each bar has the timestamp of an entry of its own. -/
theorem Run.timestamps_bars (threshold : α) (r : Run α) (es : List (Entry α)) :
    ((Run.bars threshold r es).map (·.timestamp)).Sublist (es.map (·.timestamp)) := by
  induction es generalizing r with
  | nil => exact List.Sublist.slnil
  | cons e es ih =>
    rw [Run.bars, List.map_cons]
    cases pushed : r.push threshold e with
    | mk bar? after =>
      cases bar? with
      | none => exact (ih after).cons _
      | some bar =>
        rw [List.map_cons, Run.timestamp_of_push pushed]
        exact (ih after).cons_cons _

theorem timestamp_of_ofGroup? {group : List (Print α)} {bar : Ohlcv α}
    (made : ofGroup? group = some bar) : bar.timestamp ∈ group.map (·.timestamp) := by
  cases group with
  | nil => contradiction
  | cons first rest =>
    cases made
    apply List.mem_map_of_mem
    cases last : rest.getLast? with
    | none => exact List.mem_cons_self
    | some p => exact List.mem_cons_of_mem _ (List.mem_of_getLast? last)

theorem timestamps_groups (n : Nat) (ps : List (Print α)) :
    (((groups n ps).filterMap ofGroup?).map (·.timestamp)).Sublist (ps.map (·.timestamp)) := by
  fun_induction groups n ps with
  | case1 => exact List.nil_sublist _
  | case2 ps enough ih =>
    have parts : ps.map (·.timestamp) =
        (ps.take n).map (·.timestamp) ++ (ps.drop n).map (·.timestamp) := by
      rw [← List.map_append, List.take_append_drop]
    rw [parts]
    cases made : ofGroup? (ps.take n) with
    | none =>
      rw [List.filterMap_cons_none made]
      exact ih.trans (List.sublist_append_right _ _)
    | some bar =>
      rw [List.filterMap_cons_some made, List.map_cons]
      exact (List.singleton_sublist.mpr (timestamp_of_ofGroup? made)).append ih

section Sources

variable {size : String} {bars : List (Ohlcv α)}

omit [Scalar α] in
theorem pairwise_of_timestamps {β : Type} {time : β → Int} {xs : List β}
    (times : (bars.map (·.timestamp)).Sublist ((inTimeOrder time xs).map time)) :
    bars.Pairwise (·.timestamp ≤ ·.timestamp) := by
  have sorted := List.pairwise_map.mpr (TimeOrder.pairwise_inTimeOrder time xs)
  exact List.pairwise_map.mp (sorted.sublist times)

theorem pairwise_dollarBarsOfRows {rows : List (TradeRow α)}
    (made : dollarBarsOfRows rows size = .ok bars) :
    bars.Pairwise (·.timestamp ≤ ·.timestamp) := by
  have keeps (r : TradeRow α) (e : Entry α) (entry : Entry.ofRow? r = some e) :
      e.timestamp = r.timestamp := by
    obtain ⟨_, -, rfl⟩ := Option.map_eq_some_iff.mp entry
    rfl
  obtain ⟨d, read, -⟩ := exists_of_bind made
  rw [dollarBarsOfRows_eq read, TimeOrder.filterMap_inTimeOrder _ keeps] at made
  cases made
  exact pairwise_of_timestamps (Run.timestamps_bars _ _ _)

theorem pairwise_dollarBarsOfBars {olds : List (Ohlcv α)}
    (made : dollarBarsOfBars olds size = .ok bars) :
    bars.Pairwise (·.timestamp ≤ ·.timestamp) := by
  have entries : (inTimeOrder (·.timestamp) olds).map Entry.ofBar =
      inTimeOrder Entry.timestamp (olds.map Entry.ofBar) :=
    TimeOrder.map_inTimeOrder Entry.timestamp Entry.ofBar olds
  obtain ⟨d, read, -⟩ := exists_of_bind made
  rw [dollarBarsOfBars_eq read, entries] at made
  cases made
  exact pairwise_of_timestamps (Run.timestamps_bars _ _ _)

theorem pairwise_tickBars {rows : List (TradeRow α)} {count : Nat}
    (made : tickBars rows count = .ok bars) : bars.Pairwise (·.timestamp ≤ ·.timestamp) := by
  unfold tickBars at made
  split at made
  · contradiction
  · cases made
    exact pairwise_of_timestamps (timestamps_groups _ _)

theorem tickBars_rearranged {rows rows' : List (TradeRow α)}
    (same : Rearranged (·.timestamp) rows rows') (count : Nat) :
    tickBars rows count = tickBars rows' count := by
  by_cases isZero : count = 0
  · rw [tickBars, tickBars, if_pos isZero, if_pos isZero]
  · rw [tickBars_eq_filterMap isZero, tickBars_eq_filterMap isZero,
      TimeOrder.inTimeOrder_rearranged _ same]

end Sources

theorem orderFree_dollarBarsOfRows (size : String) :
    OrderFree (TradeRow.timestamp (α := α)) (·.timestamp ≤ ·.timestamp)
      (dollarBarsOfRows · size) := by
  apply OrderFree.of_rearranged
  · intro rows rows' same
    rw [dollarBarsOfRows, dollarBarsOfRows, TimeOrder.inTimeOrder_rearranged _ same]
  · exact fun _ _ => pairwise_dollarBarsOfRows

theorem orderFree_dollarBarsOfBars (size : String) :
    OrderFree (Ohlcv.timestamp (α := α)) (·.timestamp ≤ ·.timestamp)
      (dollarBarsOfBars · size) := by
  apply OrderFree.of_rearranged
  · intro olds olds' same
    rw [dollarBarsOfBars, dollarBarsOfBars, TimeOrder.inTimeOrder_rearranged _ same]
  · exact fun _ _ => pairwise_dollarBarsOfBars

theorem orderFree_tickBars (count : Nat) :
    OrderFree (TradeRow.timestamp (α := α)) (·.timestamp ≤ ·.timestamp) (tickBars · count) := by
  apply OrderFree.of_rearranged
  · exact fun _ _ same => tickBars_rearranged same count
  · exact fun _ _ => pairwise_tickBars

end Ohlcv

namespace Candle

variable {α : Type}

theorem tied_eq (a b : Instant) : (a.le b && b.le a) = decide (b = a) := by
  obtain ⟨s, n⟩ := a
  obtain ⟨s', n'⟩ := b
  rw [Bool.eq_iff_iff, Bool.and_eq_true, Instant.le_iff, Instant.le_iff, decide_eq_true_eq,
    Instant.mk.injEq]
  dsimp only
  omega

theorem inOrder_rearranged {cs ds : List (Candle α)} (same : Rearranged (·.openTime) cs ds) :
    inOrder cs = inOrder ds :=
  eq_inOrder ((stableOrder_inOrder cs).rearranged (fun _ _ => tied_eq _ _) same)

theorem pairwise_resample [Scalar α] {cs bars : List (Candle α)} {text : String}
    (made : resample cs text = .ok bars) :
    bars.Pairwise fun a b => a.openTime.le b.openTime = true := by
  obtain ⟨interval, read, -⟩ := exists_of_bind made
  by_cases nonempty : cs ≠ []
  · obtain ⟨first, last, spans⟩ := exists_spans nonempty
    rw [resample_eq_starts read spans] at made
    cases starts : (Grid.covering interval.seconds first last).starts with
    | error fault =>
      rw [starts] at made
      contradiction
    | ok ts =>
      rw [starts] at made
      cases made
      exact pairwise_resampled interval.positive cs
  · obtain rfl := not_not.mp nonempty
    rw [resample_nil read] at made
    cases made
    exact List.Pairwise.nil

theorem orderFree_resample [Scalar α] (text : String) :
    OrderFree (Candle.openTime (α := α)) (fun a b => a.openTime.le b.openTime = true)
      (resample · text) := by
  apply OrderFree.of_rearranged
  · intro cs ds same
    rw [resample, resample, inOrder_rearranged same]
  · exact fun _ _ => pairwise_resample

end Candle

open Ohlcv Candle

/-- Archived data of any order, in which those of one time keep theirs, give the same bars, or the
same fault; and the bars are in the order of time. -/
theorem orderFree_conversions {α : Type} [Scalar α] :
    (∀ size, OrderFree TradeRow.timestamp (fun a b : Ohlcv α => a.timestamp ≤ b.timestamp)
      (dollarBarsOfRows · size)) ∧
    (∀ size, OrderFree Ohlcv.timestamp (fun a b : Ohlcv α => a.timestamp ≤ b.timestamp)
      (dollarBarsOfBars · size)) ∧
    (∀ count, OrderFree TradeRow.timestamp (fun a b : Ohlcv α => a.timestamp ≤ b.timestamp)
      (tickBars · count)) ∧
    ∀ interval, OrderFree Candle.openTime (fun a b : Candle α => a.openTime.le b.openTime = true)
      (resample · interval) :=
  ⟨orderFree_dollarBarsOfRows, orderFree_dollarBarsOfBars, orderFree_tickBars, orderFree_resample⟩

/-- The later of the two rows of one second stays behind the other. -/
theorem orderFree_conversions_tied :
    let rows : List (TradeRow Float) := [⟨7, some 1, some 1⟩, ⟨5, some 2, none⟩, ⟨5, some 2, some 1⟩]
    let rows' : List (TradeRow Float) := [⟨5, some 2, none⟩, ⟨7, some 1, some 1⟩, ⟨5, some 2, some 1⟩]
    Rearranged TradeRow.timestamp rows rows' ∧
      dollarBarsOfRows rows "3" = dollarBarsOfRows rows' "3" ∧
      tickBars rows 2 = tickBars rows' 2 := by
  intro rows rows'
  have same : Rearranged TradeRow.timestamp rows rows' := by
    refine ⟨.swap _ _ _, fun time => ?_⟩
    by_cases seven : (7 : Int) = time
    · subst seven
      rfl
    · simp [rows, rows', List.filter_cons, seven]
  obtain ⟨byValue, -, byCount, -⟩ := orderFree_conversions (α := Float)
  exact ⟨same, (byValue "3").rearranged same, (byCount 2).rearranged same⟩

end TradeBars
