import TradeBars.Proofs.LiveBars
import TradeBars.Proofs.Series

/-! What a builder holds. Trades give the newest bars of the list that they would give
without any bound; history comes in front of the bars that are there, as far as there is
room. -/
namespace TradeBars.Builder
open Newest

variable {α : Type}

/-- The builder has the newest of these bars, as many as it can. -/
def Shows (b : Builder α) (bars : List (Bar α)) : Prop := b.series.Holds (bars.rtake b.capacity)

section Views

variable {b : Builder α} {bars : List (Bar α)}

theorem Shows.positive (shown : b.Shows bars) : 0 < b.capacity :=
  Nat.zero_lt_of_lt shown.head_lt

theorem Shows.bars_eq (shown : b.Shows bars) : b.bars = bars.rtake b.capacity := shown.toList_eq

theorem Shows.length_bars_le (shown : b.Shows bars) : b.bars.length ≤ b.capacity := by
  rw [shown.bars_eq, length_rtake]
  exact Nat.min_le_left _ _

theorem Shows.last?_eq (shown : b.Shows bars) : b.series.last? = bars.getLast? := by
  rw [Ring.Holds.last?_eq shown, getLast?_rtake bars shown.positive]

theorem Shows.isOpen_eq (shown : b.Shows bars) :
    b.isOpen = bars.getLast?.any (·.tradeCount < b.threshold) := by
  rw [isOpen, shown.last?_eq]
  cases bars.getLast? <;> rfl

theorem Shows.isClosed_eq (shown : b.Shows bars) :
    b.isClosed = bars.getLast?.any (b.threshold ≤ ·.tradeCount) := by
  rw [isClosed, shown.last?_eq]
  cases bars.getLast? <;> rfl

theorem Shows.lastIndex?_getD (shown : b.Shows bars) :
    b.series.lastIndex?.getD 0 = min b.capacity bars.length - 1 := by
  rw [Ring.Holds.lastIndex?_eq shown, length_rtake]
  split
  · next empty => rw [empty]; rfl
  · rfl

theorem closed_eq_not_open (threshold : UInt32) {bars : List (Bar α)} (nonempty : bars ≠ []) :
    bars.getLast?.any (threshold ≤ ·.tradeCount) =
      !bars.getLast?.any (·.tradeCount < threshold) := by
  rw [List.getLast?_eq_some_getLast nonempty, Option.any_some, Option.any_some, ← decide_not]
  exact decide_eq_decide.mpr UInt32.not_lt.symm

end Views

section New

variable {capacity : Nat} {threshold : UInt32} {allocates : Nat → Bool} (someBars : 0 < capacity)
  (someTrades : 0 < threshold.toNat)
include someBars someTrades

theorem new_of_positive : (new capacity threshold allocates : Except Fault (Builder α)) =
    if allocates capacity then .ok ⟨.empty capacity, threshold⟩ else .error .allocation := by
  have nonzero : threshold ≠ 0 := by
    rintro rfl
    exact Nat.lt_irrefl _ someTrades
  rw [new, if_neg nonzero, Series.ofCapacity, if_neg someBars.ne']
  split <;> rfl

theorem new_eq (allocated : allocates capacity = true) :
    new capacity threshold allocates = .ok (⟨.empty capacity, threshold⟩ : Builder α) :=
  (new_of_positive someBars someTrades).trans (if_pos allocated)

end New

theorem shows_empty {capacity : Nat} (someBars : 0 < capacity) (threshold : UInt32) :
    (⟨.empty capacity, threshold⟩ : Builder α).Shows [] := by
  rw [Shows, List.rtake_nil]
  exact .empty someBars

/-- A builder is made for positive bounds only, and it is empty. -/
theorem shows_of_new {capacity : Nat} {threshold : UInt32} {allocates : Nat → Bool} {b : Builder α}
    (made : new capacity threshold allocates = .ok b) :
    b.Shows [] ∧ b.capacity = capacity ∧ b.threshold = threshold ∧ 0 < threshold.toNat := by
  unfold new Series.ofCapacity at made
  split at made
  · contradiction
  · next nonzero =>
    split at made
    · contradiction
    · next someBars =>
      split at made
      · cases made
        have someTrades : 0 < threshold.toNat := by
          apply Nat.pos_of_ne_zero
          intro zero
          exact nonzero (UInt32.toNat_inj.mp zero)
        exact ⟨shows_empty (Nat.pos_of_ne_zero someBars) threshold, Ring.capacity_empty capacity,
          rfl, someTrades⟩
      · contradiction

section Trades

variable [Scalar α] {b : Builder α} {bars : List (Bar α)}

@[simp] theorem capacity_addTrade (b : Builder α) (t : Trade α) :
    (b.addTrade t).2.capacity = b.capacity := by
  change (if b.isOpen then _ else _ : Series α).capacity = _
  split
  · exact Ring.capacity_modifyLast _ _
  · exact Ring.capacity_pushBack _ _

@[simp] theorem threshold_addTrades (b : Builder α) (ts : List (Trade α)) :
    (b.addTrades ts).threshold = b.threshold := by
  induction ts generalizing b with
  | nil => rfl
  | cons t ts ih => exact ih _

@[simp] theorem capacity_addTrades (b : Builder α) (ts : List (Trade α)) :
    (b.addTrades ts).capacity = b.capacity := by
  induction ts generalizing b with
  | nil => rfl
  | cons t ts ih => exact (ih _).trans (capacity_addTrade b t)

theorem Shows.addTrade (shown : b.Shows bars) (t : Trade α) :
    (b.addTrade t).2.Shows (feed b.threshold bars t) := by
  have isOpen := shown.isOpen_eq
  rw [Shows, capacity_addTrade, feed, ← isOpen]
  change (if b.isOpen then _ else _ : Series α).Holds _
  split
  · rw [← modifyLast_rtake _ _ shown.positive]
    exact Ring.Holds.modifyLast shown _
  · rw [← rtake_rtake_append]
    exact Ring.Holds.pushBack shown _

theorem Shows.addTrades (shown : b.Shows bars) (ts : List (Trade α)) :
    (b.addTrades ts).Shows (feedAll b.threshold bars ts) := by
  induction ts generalizing b bars with
  | nil => exact shown
  | cons t ts ih => exact ih (shown.addTrade t)

theorem shows_liveBars {capacity : Nat} {threshold : UInt32} {allocates : Nat → Bool}
    (made : new capacity threshold allocates = .ok b) (ts : List (Trade α)) :
    (b.addTrades ts).Shows (liveBars threshold ts) := by
  obtain ⟨shown, -, rfl, someTrades⟩ := shows_of_new made
  rw [← LiveBars.feedAll_nil someTrades]
  exact shown.addTrades ts

theorem Shows.update_eq (shown : b.Shows bars) (t : Trade α) :
    (b.addTrade t).1 =
      { index := min b.capacity (feed b.threshold bars t).length - 1
        opened := !bars.getLast?.any (·.tradeCount < b.threshold)
        closed := !(feed b.threshold bars t).getLast?.any (·.tradeCount < b.threshold) } := by
  have after := shown.addTrade t
  have index := after.lastIndex?_getD
  have closed := after.isClosed_eq
  rw [closed_eq_not_open _ (LiveBars.feed_ne_nil _ _ _)] at closed
  rw [capacity_addTrade] at index
  rw [← index, ← shown.isOpen_eq]
  exact congrArg (Update.mk _ _) closed

/-- What one more trade does, with history in front of the bars of the earlier ones. -/
theorem Shows.update_of_liveBars {threshold : UInt32} {older : List (Bar α)} {ts : List (Trade α)}
    (shown : b.Shows (older ++ liveBars threshold ts)) (same : b.threshold = threshold)
    (someTrades : 0 < threshold.toNat) (anchored : ts = [] → older = []) (t : Trade α) :
    (b.addTrade t).1 =
      { index := min b.capacity (older.length + (ts.length + 1) ⌈/⌉ threshold.toNat) - 1
        opened := ts.length % threshold.toNat = 0
        closed := (ts.length + 1) % threshold.toNat = 0 } := by
  have length : (ts ++ [t]).length = ts.length + 1 := List.length_append
  have stillAnchored : ts ++ [t] = [] → older = [] := fun empty => absurd empty (by simp)
  rw [shown.update_eq, same, LiveBars.feed_append_liveBars someTrades anchored,
    LiveBars.not_open_append someTrades anchored, LiveBars.not_open_append someTrades stillAnchored,
    List.length_append, LiveBars.length_liveBars someTrades, length]

end Trades

section Cut

variable [Scalar α]

theorem update_of_new {capacity : Nat} {threshold : UInt32} {allocates : Nat → Bool}
    {b : Builder α} (made : new capacity threshold allocates = .ok b) (ts : List (Trade α))
    (t : Trade α) :
    ((b.addTrades ts).addTrade t).1 =
      { index := min capacity ((ts.length + 1) ⌈/⌉ threshold.toNat) - 1
        opened := ts.length % threshold.toNat = 0
        closed := (ts.length + 1) % threshold.toNat = 0 } := by
  obtain ⟨-, rfl, rfl, someTrades⟩ := shows_of_new made
  have shown : (b.addTrades ts).Shows ([] ++ liveBars b.threshold ts) := shows_liveBars made ts
  have update := shown.update_of_liveBars (threshold_addTrades b ts) someTrades (fun _ => rfl) t
  rwa [capacity_addTrades, List.length_nil, Nat.zero_add] at update

/-- Every trade counts in the bar of its group of `threshold` trades, and the newest
`capacity` bars are kept, whatever the number of trades. -/
theorem addTrades_cuts (capacity : Nat) (threshold : UInt32) (someBars : 1 ≤ capacity)
    (someTrades : 1 ≤ threshold.toNat) (allocates : Nat → Bool)
    (allocated : allocates capacity = true) (ts : List (Trade α)) :
    ∃ b : Builder α, new capacity threshold allocates = .ok b ∧
      (chunks threshold.toNat ts).flatten = ts ∧
      (b.addTrades ts).bars.map some =
        ((chunks threshold.toNat ts).map Bar.ofTrades?).rtake capacity ∧
      (b.addTrades ts).bars.length = min capacity (ts.length ⌈/⌉ threshold.toNat) ∧
      (b.addTrades ts).bars.map (·.tradeCount.toNat) =
        ((chunks threshold.toNat ts).map List.length).rtake capacity ∧
      (∀ chunk ∈ chunks threshold.toNat ts, 1 ≤ chunk.length ∧ chunk.length ≤ threshold.toNat) ∧
      ∀ before t after, ts = before ++ t :: after →
        ((b.addTrades before).addTrade t).1 =
          { index := min capacity ((before.length + 1) ⌈/⌉ threshold.toNat) - 1
            opened := before.length % threshold.toNat = 0
            closed := (before.length + 1) % threshold.toNat = 0 } := by
  have made : new capacity threshold allocates = .ok (_ : Builder α) :=
    new_eq someBars someTrades allocated
  have kept := (shows_liveBars made ts).bars_eq
  rw [capacity_addTrades, (shows_of_new made).2.1] at kept
  refine ⟨_, made, Chunks.flatten_chunks someTrades ts, ?_, ?_, ?_, ?_, ?_⟩
  · rw [kept, map_rtake, LiveBars.map_some_liveBars someTrades]
  · rw [kept, length_rtake, LiveBars.length_liveBars someTrades]
  · rw [kept, map_rtake, LiveBars.tradeCount_liveBars someTrades]
  · intro chunk member
    exact Chunks.length_of_mem_chunks someTrades member
  · intro before t _ _
    exact update_of_new made before t

/-- The third of the bars opens with the seventh trade, and the first one is gone. -/
theorem addTrades_cuts_seven :
    let trade (i : Nat) : Trade Float := ⟨i, 1, 1, .buy, "BTC-USDT"⟩
    let ts := (List.range 7).map trade
    1 ≤ 2 ∧ 1 ≤ (3 : UInt32).toNat ∧ ∃ b : Builder Float, new 2 3 = .ok b ∧
      (b.addTrades ts).bars.map (·.tradeCount.toNat) = [3, 1] ∧
      ((b.addTrades (ts.take 6)).addTrade (trade 6)).1 = ⟨1, true, false⟩ := by
  intro trade ts
  obtain ⟨b, made, -, -, -, counts, -, updates⟩ :=
    addTrades_cuts 2 3 (by decide) (by decide) (fun _ => true) rfl ts
  exact ⟨by decide, by decide, b, made, counts.trans (by decide),
    (updates (ts.take 6) (trade 6) [] rfl).trans (by decide)⟩

end Cut

section History

variable [Scalar α] {b : Builder α} {bars : List (Bar α)}

/-- The bars of a history that may go before the oldest bar. -/
def eligible (b : Builder α) (history : List (Bar α)) : List (Bar α) :=
  match b.oldest? with
  | some oldest => history.filter fun bar => bar.timestamp < oldest && bar.isConsistent
  | none => []

def added (b : Builder α) (history : List (Bar α)) : List (Bar α) :=
  (b.eligible history).rtake b.missing

omit [Scalar α] in
theorem prependAll_holds (holds : b.series.Holds bars) (newestFirst : List (Bar α)) :
    (b.prependAll newestFirst).1 = min b.missing newestFirst.length ∧
      (b.prependAll newestFirst).2.series.Holds ((newestFirst.take b.missing).reverse ++ bars) ∧
      (b.prependAll newestFirst).2.threshold = b.threshold ∧
      (b.prependAll newestFirst).2.capacity = b.capacity := by
  have missing_eq : b.missing = b.capacity - bars.length := holds.remaining_eq
  induction newestFirst generalizing b bars with
  | nil => exact ⟨(Nat.min_zero _).symm, by rw [List.take_nil]; exact holds, rfl, rfl⟩
  | cons bar older ih =>
    obtain full | room := holds.length_le.eq_or_lt
    · have noRoom : b.missing = 0 := missing_eq.trans (Nat.sub_eq_zero_of_le full.ge)
      rw [prependAll, holds.pushFront?_of_full full, noRoom]
      exact ⟨(Nat.zero_min _).symm, by simpa using holds, rfl, rfl⟩
    · obtain ⟨series, pushed, capacity, held⟩ := holds.pushFront?_of_lt room bar
      have left : Builder.missing { b with series } = series.capacity - (bar :: bars).length :=
        held.remaining_eq
      obtain ⟨count, all, threshold, size⟩ := ih (b := { b with series }) held left
      have step : b.missing = Builder.missing { b with series } + 1 := by
        rw [left, capacity, missing_eq, List.length_cons]
        change b.series.capacity - _ = _
        omega
      rw [prependAll, pushed, step]
      refine ⟨?_, ?_, threshold, size.trans capacity⟩
      · simp only [count, List.length_cons]
        omega
      · simpa [List.take_succ_cons] using all

omit [Scalar α] in
theorem oldest?_eq (holds : b.series.Holds bars) : b.oldest? = bars.head?.map (·.timestamp) := by
  rw [oldest?, holds.first?_eq]

/-- History takes the place in front of the bars that are there; none of these is changed. -/
theorem prepend_holds (holds : b.series.Holds bars) (history : List (Bar α)) :
    (b.prepend history).1 = (b.added history).length ∧
      (b.prepend history).2.series.Holds (b.added history ++ bars) ∧
      (b.prepend history).2.threshold = b.threshold ∧
      (b.prepend history).2.capacity = b.capacity := by
  unfold prepend added eligible
  cases b.oldest? with
  | none =>
    rw [List.rtake_nil]
    exact ⟨rfl, holds, rfl, rfl⟩
  | some oldest =>
    have spec := prependAll_holds holds
      (history.reverse.filter fun bar => bar.timestamp < oldest && bar.isConsistent)
    rw [List.filter_reverse, List.length_reverse, ← List.rtake_eq_reverse_take_reverse] at spec
    dsimp only
    rw [length_rtake, List.filter_reverse]
    exact spec

theorem missing_pos_of_added (history : List (Bar α)) (someAdded : b.added history ≠ []) :
    0 < b.missing := by
  apply Nat.pos_of_ne_zero
  intro noRoom
  exact someAdded (by rw [added, noRoom, List.rtake_zero])

omit [Scalar α] in
theorem Shows.missing_eq (shown : b.Shows bars) : b.missing = b.capacity - bars.length := by
  have room : b.missing = b.capacity - (bars.rtake b.capacity).length :=
    Ring.Holds.remaining_eq shown
  rw [room, length_rtake]
  omega

omit [Scalar α] in
/-- With room left nothing was given up. -/
theorem Shows.length_lt (shown : b.Shows bars) (room : 0 < b.missing) :
    bars.length < b.capacity := by
  rw [shown.missing_eq] at room
  omega

omit [Scalar α] in
theorem Shows.holds_of_length_le (shown : b.Shows bars) (fits : bars.length ≤ b.capacity) :
    b.series.Holds bars := by
  have held := shown
  rwa [Shows, rtake_of_length_le fits] at held

theorem mem_added {history : List (Bar α)} {bar : Bar α} (member : bar ∈ b.added history) :
    bar ∈ history ∧ bar.isConsistent = true ∧
      ∃ oldest, b.oldest? = some oldest ∧ bar.timestamp < oldest := by
  have inside := (rtake_suffix _ _).subset member
  unfold eligible at inside
  split at inside
  · next oldest found =>
    simp only [List.mem_filter, Bool.and_eq_true, decide_eq_true_eq] at inside
    exact ⟨inside.1, inside.2.2, oldest, found, inside.2.1⟩
  · contradiction

theorem added_sublist (b : Builder α) (history : List (Bar α)) :
    (b.added history).Sublist history := by
  apply (rtake_suffix _ _).sublist.trans
  unfold eligible
  split
  · exact List.filter_sublist
  · exact List.nil_sublist _

theorem pairwise_added {r : Bar α → Bar α → Prop} {history : List (Bar α)}
    (sorted : history.Pairwise r) : (b.added history).Pairwise r :=
  sorted.sublist (added_sublist b history)

omit [Scalar α] in
theorem Shows.oldest?_of_room (shown : b.Shows bars) (room : 0 < b.missing) :
    b.oldest? = bars.head?.map (·.timestamp) :=
  oldest?_eq (shown.holds_of_length_le (shown.length_lt room).le)

theorem Shows.prepend (shown : b.Shows bars) (history : List (Bar α)) :
    (b.prepend history).2.Shows (b.added history ++ bars) := by
  obtain ⟨-, held, -, capacity⟩ := prepend_holds shown history
  rw [Shows, capacity]
  by_cases noneAdded : b.added history = []
  · rw [noneAdded] at held ⊢
    exact held
  · have fits := shown.length_lt (missing_pos_of_added history noneAdded)
    rw [rtake_of_length_le fits.le] at held
    have bound : _ ≤ (b.prepend history).2.capacity := held.length_le
    rwa [rtake_of_length_le (capacity ▸ bound)]

theorem Shows.bars_prepend (shown : b.Shows bars) (history : List (Bar α)) :
    (b.prepend history).2.bars = b.added history ++ b.bars := by
  obtain ⟨-, held, -, -⟩ := prepend_holds shown history
  rw [shown.bars_eq]
  exact held.toList_eq

theorem Shows.take_prepend (shown : b.Shows bars) (history : List (Bar α)) :
    (b.prepend history).2.bars.take (b.prepend history).1 = b.added history := by
  obtain ⟨count, -, -, -⟩ := prepend_holds shown history
  rw [shown.bars_prepend, count, List.take_left]

end History

/-- What a builder comes to by trades, history and clearing. -/
inductive Reachable [Scalar α] : Builder α → Prop where
  | new {capacity threshold b} : new capacity threshold = .ok b → Reachable b
  | addTrade {b} (t : Trade α) : Reachable b → Reachable (b.addTrade t).2
  | prepend {b} (history : List (Bar α)) : Reachable b → Reachable (b.prepend history).2
  | clear {b} : Reachable b → Reachable b.clear

theorem Shows.bars {b : Builder α} {bars : List (Bar α)} (shown : b.Shows bars) :
    b.Shows b.bars := by
  rw [shown.bars_eq, Shows, rtake_rtake, Nat.min_self]
  exact shown

theorem Reachable.shows [Scalar α] {b : Builder α} (reached : b.Reachable) : b.Shows b.bars := by
  induction reached with
  | new made => exact (shows_of_new made).1.bars
  | addTrade t _ ih => exact (ih.addTrade t).bars
  | prepend history _ ih => exact (ih.prepend history).bars
  | clear _ ih =>
    have held : (Builder.clear _).Shows [] := shows_empty ih.positive _
    exact held.bars

theorem Reachable.length_le [Scalar α] {b : Builder α} (reached : b.Reachable) :
    b.bars.length ≤ b.capacity := reached.shows.length_bars_le

theorem Reachable.shows_of_bars [Scalar α] {b : Builder α} (reached : b.Reachable)
    {bars : List (Bar α)} (same : b.bars = bars.rtake b.capacity) : b.Shows bars := by
  have shown := reached.shows
  rwa [same, Shows, rtake_rtake, Nat.min_self] at shown

theorem Reachable.holds [Scalar α] {b : Builder α} (reached : b.Reachable) :
    b.series.Holds b.bars := reached.shows.holds_of_length_le reached.length_le

section Prepend

variable [Scalar α] {b : Builder α} {bars : List (Bar α)}

theorem eligible_eq (holds : b.series.Holds bars) (history : List (Bar α)) :
    b.eligible history = history.filter fun bar =>
      bar.isConsistent && bars.head?.any (bar.timestamp < ·.timestamp) := by
  unfold eligible
  rw [oldest?_eq holds]
  cases bars with
  | nil => simp
  | cons first rest => simp [Bool.and_comm]

/-- What goes in front is older than the oldest bar, and so than all bars if they are in order. -/
theorem pairwise_added_append (holds : b.series.Holds bars) {history : List (Bar α)}
    (sorted : history.Pairwise (·.timestamp ≤ ·.timestamp))
    (inOrder : bars.Pairwise (·.timestamp ≤ ·.timestamp)) :
    (b.added history ++ bars).Pairwise (·.timestamp ≤ ·.timestamp) := by
  refine List.pairwise_append.mpr ⟨pairwise_added sorted, inOrder, ?_⟩
  intro bar member later inside
  obtain ⟨-, -, oldest, found, older⟩ := mem_added member
  rw [oldest?_eq holds] at found
  cases bars with
  | nil => contradiction
  | cons first rest =>
    obtain rfl := Option.some.inj found
    rcases List.mem_cons.mp inside with rfl | inside
    · exact older.le
    · exact older.le.trans (List.rel_of_pairwise_cons inOrder inside)

/-- Of the consistent bars of a history that are older than the oldest bar, the last ones go in front
of it, as many as there is room for; without a bar none goes in. All else stays as it is, and so does
the order of time. -/
theorem prepend_inserts (reached : b.Reachable) (history : List (Bar α)) :
    let older := history.filter fun bar =>
      bar.isConsistent && b.bars.head?.any (bar.timestamp < ·.timestamp)
    let count := (b.prepend history).1
    let after := (b.prepend history).2
    count = min (b.capacity - b.bars.length) older.length ∧
      after.bars = older.rtake count ++ b.bars ∧
      after.threshold = b.threshold ∧ after.capacity = b.capacity ∧
      (history.Pairwise (·.timestamp ≤ ·.timestamp) → b.bars.Pairwise (·.timestamp ≤ ·.timestamp) →
        after.bars.Pairwise (·.timestamp ≤ ·.timestamp)) := by
  intro older count after
  have holds := reached.holds
  obtain ⟨length, -, threshold, capacity⟩ := prepend_holds holds history
  have shown : after.bars = b.added history ++ b.bars := reached.shows.bars_prepend history
  have eligible : b.eligible history = older := eligible_eq holds history
  have room : b.missing = b.capacity - b.bars.length := holds.remaining_eq
  have count_eq : count = min (b.capacity - b.bars.length) older.length := by
    change (b.prepend history).1 = _
    rw [length, added, length_rtake, eligible, room]
  have added_eq : b.added history = older.rtake count := by
    rw [count_eq, rtake_min_length, added, eligible, room]
  refine ⟨count_eq, by rw [shown, added_eq], threshold, capacity, ?_⟩
  intro sorted inOrder
  rw [shown]
  exact pairwise_added_append holds sorted inOrder

/-- Two places are free. The bar of time 6 finds no room, the one of time 8 has no trades, and the one
of time 12 is not older than the oldest bar. -/
theorem prepend_inserts_two :
    let trade (i : Int) : Trade Float := ⟨i, 1, 1, .buy, "BTC-USDT"⟩
    let bar (i : Int) : Bar Float := .ofTrade (trade i)
    let history := [bar 6, bar 7, { bar 8 with tradeCount := 0 }, bar 9, bar 12]
    let b : Builder Float := Builder.addTrades ⟨.empty 3, 1⟩ [trade 10]
    b.Reachable ∧ history.Pairwise (·.timestamp ≤ ·.timestamp) ∧
      b.bars.Pairwise (·.timestamp ≤ ·.timestamp) ∧ (b.prepend history).1 = 2 ∧
      (b.prepend history).2.bars.map (·.timestamp) = [7, 9, 10] ∧
      (b.prepend history).2.bars.Pairwise (·.timestamp ≤ ·.timestamp) := by
  intro trade bar history b
  have reached : b.Reachable := .addTrade (trade 10) (.new (new_eq (by decide) (by decide) rfl))
  have sorted : history.Pairwise (·.timestamp ≤ ·.timestamp) := by decide
  have inOrder : b.bars.Pairwise (·.timestamp ≤ ·.timestamp) := by decide
  obtain ⟨count, bars, -, -, kept⟩ := prepend_inserts reached history
  have two : (b.prepend history).1 = 2 := count.trans (by decide)
  refine ⟨reached, sorted, inOrder, two, ?_, kept sorted inOrder⟩
  rw [bars, two]
  decide

end Prepend

end TradeBars.Builder
