import TradeBars.Backfill.Cycle
import TradeBars.Proofs.Builder
import TradeBars.Proofs.TimeOrder

/-! One builder shared by trades and a backfill cycle. The cycle has the builder to itself
when it looks at it and when it puts bars in; trades come between these steps in any number
and order. Main statement: what the cycle put in stands unchanged in front of the bars of
the trades, which are those of a builder without bound and without backfill. -/
namespace TradeBars.Backfill
open Builder Newest

variable {α : Type}

structure Shared (α : Type) where
  builder : Builder α
  cycle : Cycle

inductive Event (α : Type) where
  | trade (t : Trade α)
  /-- A look at the builder, and the fetch that it leads to. -/
  | look (call : Option (Int × Nat))
  /-- The bars of a fetch, and those of them that went in. -/
  | answer (bars added : List (Bar α))
  | failure
  | resume

@[simp] def Phase.call? : Phase → Option (Int × Nat)
  | .fetching upTo limit => some (upTo, limit)
  | _ => none

variable [Scalar α]

/-- The steps of trades and cycle, for all answers that a source may give to a fetch. What
went in is read off the builder: as many bars of its old end as the cycle counts. -/
inductive Step (answers : Int → Nat → Option (List (Bar α)) → Prop) (maxFetchLimit : Nat) :
    Shared α → Event α → Shared α → Prop where
  | trade (s : Shared α) (t : Trade α) :
      Step answers maxFetchLimit s (.trade t) { s with builder := (s.builder.addTrade t).2 }
  | look (s : Shared α) : s.cycle.phase = .reading →
      Step answers maxFetchLimit s (.look (s.cycle.consult maxFetchLimit s.builder).phase.call?)
        { s with cycle := s.cycle.consult maxFetchLimit s.builder }
  | answer (s : Shared α) {upTo : Int} {limit : Nat} {bars : List (Bar α)} {cycle : Cycle}
      {builder : Builder α} : s.cycle.phase = .fetching upTo limit →
      answers upTo limit (some bars) → s.cycle.receive (some bars) s.builder = (cycle, builder) →
      Step answers maxFetchLimit s
        (.answer bars (builder.bars.take (cycle.inserted - s.cycle.inserted))) ⟨builder, cycle⟩
  | failure (s : Shared α) {upTo : Int} {limit : Nat} : s.cycle.phase = .fetching upTo limit →
      answers upTo limit none →
      Step answers maxFetchLimit s .failure
        { s with cycle := (s.cycle.receive none s.builder).1 }
  | resume (s : Shared α) : s.cycle.phase = .pausing →
      Step answers maxFetchLimit s .resume { s with cycle := s.cycle.resume }

/-- A cycle from its start on, in any interleaving with trades. -/
inductive Run (answers : Int → Nat → Option (List (Bar α)) → Prop) (maxFetchLimit : Nat)
    (start : Builder α) : List (Event α) → Shared α → Prop where
  | start : Run answers maxFetchLimit start [] ⟨start, .start start.capacity⟩
  | next {events : List (Event α)} {s s' : Shared α} {event : Event α} :
      Run answers maxFetchLimit start events s → Step answers maxFetchLimit s event s' →
      Run answers maxFetchLimit start (events ++ [event]) s'

def Event.trade? : Event α → Option (Trade α)
  | .trade t => some t
  | _ => none

def Event.added : Event α → List (Bar α)
  | .answer _ added => added
  | _ => []

def trades (events : List (Event α)) : List (Trade α) := events.filterMap Event.trade?

/-- All bars that the cycle put in, from old to new: each time before the earlier ones. -/
def inserted (events : List (Event α)) : List (Bar α) :=
  events.foldl (fun bars event => event.added ++ bars) []

omit [Scalar α] in
theorem trades_concat (events : List (Event α)) (event : Event α) :
    trades (events ++ [event]) = trades events ++ event.trade?.toList := by
  rw [trades, trades, List.filterMap_append, List.filterMap_cons]
  cases event.trade? <;> rfl

omit [Scalar α] in
theorem inserted_concat (events : List (Event α)) (event : Event α) :
    inserted (events ++ [event]) = event.added ++ inserted events := by
  rw [inserted, inserted, List.foldl_concat]

/-- What a run keeps: `before` are the bars put in and `live` those of the trades, which were
`base` at the start. -/
structure Kept (start : Builder α) (base before live : List (Bar α)) (s : Shared α) : Prop where
  threshold : s.builder.threshold = start.threshold
  capacity : s.builder.capacity = start.capacity
  shown : s.builder.Shows (before ++ live)
  counted : s.cycle.inserted = before.length
  consistent : ∀ bar ∈ before, bar.isConsistent = true
  ordered : before.Pairwise (·.timestamp ≤ ·.timestamp)
  older : ∀ bar ∈ before, ∃ first, live.head? = some first ∧ bar.timestamp < first.timestamp
  grown : base.length ≤ live.length
  room : before ≠ [] → base.length < start.capacity

namespace Kept

variable {start : Builder α} {base before live : List (Bar α)} {s : Shared α}

theorem initial (shown : start.Shows base) :
    Kept start base [] base ⟨start, .start start.capacity⟩ where
  threshold := rfl
  capacity := rfl
  shown := shown
  counted := rfl
  consistent := fun _ member => absurd member List.not_mem_nil
  ordered := List.Pairwise.nil
  older := fun _ member => absurd member List.not_mem_nil
  grown := Nat.le_refl _
  room := fun nonempty => absurd rfl nonempty

theorem trade (kept : Kept start base before live s) (t : Trade α) :
    Kept start base before (feed start.threshold live t)
      { s with builder := (s.builder.addTrade t).2 } where
  threshold := kept.threshold
  capacity := (capacity_addTrade _ _).trans kept.capacity
  shown := by
    have shown := kept.shown.addTrade t
    rw [kept.threshold] at shown
    by_cases empty : before = []
    · rwa [empty, List.nil_append] at shown ⊢
    · -- the first bars of all are no live ones, so the trade finds a live one to go to
      obtain ⟨bar, member⟩ := List.exists_mem_of_ne_nil _ empty
      obtain ⟨first, found, -⟩ := kept.older bar member
      have nonempty : live ≠ [] := by
        rintro rfl
        contradiction
      rwa [LiveBars.feed_append before nonempty] at shown
  counted := kept.counted
  consistent := kept.consistent
  ordered := kept.ordered
  older := by
    intro bar member
    obtain ⟨first, found, lt⟩ := kept.older bar member
    have same := LiveBars.head?_feed start.threshold (congrArg (Option.map (·.timestamp)) found) t
    obtain ⟨first', found', timestamp⟩ := Option.map_eq_some_iff.mp same
    exact ⟨first', found', timestamp ▸ lt⟩
  grown := kept.grown.trans (LiveBars.length_le_feed _ _ _)
  room := kept.room

theorem answer (kept : Kept start base before live s) {bars : List (Bar α)}
    (sorted : bars.Pairwise (·.timestamp ≤ ·.timestamp)) {cycle : Cycle}
    (count : cycle.inserted = s.cycle.inserted + (s.builder.prepend bars).1) :
    Kept start base (s.builder.added bars ++ before) live ⟨(s.builder.prepend bars).2, cycle⟩ := by
  obtain ⟨prepended, -, threshold, capacity⟩ := prepend_holds kept.shown bars
  -- every new bar is older than the first of all bars, which are all there
  have olderThanAll : ∀ bar ∈ s.builder.added bars, ∃ first,
      (before ++ live).head? = some first ∧ bar.timestamp < first.timestamp := by
    intro bar member
    obtain ⟨-, -, oldest, found, lt⟩ := mem_added member
    rw [kept.shown.oldest?_of_room (missing_pos_of_added bars (List.ne_nil_of_mem member))] at found
    obtain ⟨first, isFirst, timestamp⟩ := Option.map_eq_some_iff.mp found
    exact ⟨first, isFirst, timestamp ▸ lt⟩
  refine ⟨threshold.trans kept.threshold, capacity.trans kept.capacity, ?_, ?_, ?_, ?_, ?_, ?_, ?_⟩
  · rw [List.append_assoc]
    exact kept.shown.prepend bars
  · rw [count, prepended, kept.counted, List.length_append, Nat.add_comm]
  · intro bar member
    rcases List.mem_append.mp member with new | old
    · exact (mem_added new).2.1
    · exact kept.consistent bar old
  · apply List.pairwise_append.mpr
    refine ⟨pairwise_added sorted, kept.ordered, ?_⟩
    intro bar new later old
    obtain ⟨first, isFirst, lt⟩ := olderThanAll bar new
    cases before with
    | nil => contradiction
    | cons oldest rest =>
      cases isFirst
      rcases List.mem_cons.mp old with rfl | old
      · exact lt.le
      · exact lt.le.trans ((List.pairwise_cons.mp kept.ordered).1 later old)
  · intro bar member
    rcases List.mem_append.mp member with new | old
    · obtain ⟨first, isFirst, lt⟩ := olderThanAll bar new
      cases before with
      | nil => exact ⟨first, isFirst, lt⟩
      | cons oldest rest =>
        cases isFirst
        obtain ⟨live, found, lt'⟩ := kept.older _ List.mem_cons_self
        exact ⟨live, found, lt.trans lt'⟩
    · exact kept.older bar old
  · exact kept.grown
  · intro grew
    by_cases new : s.builder.added bars = []
    · rw [new, List.nil_append] at grew
      exact kept.room grew
    · have fits := kept.shown.length_lt (missing_pos_of_added bars new)
      rw [List.length_append, kept.capacity] at fits
      have := kept.grown
      omega

end Kept

omit [Scalar α] in
theorem consult_cases (c : Cycle) (maxFetchLimit : Nat) (b : Builder α) :
    b.oldest? = none ∧ c.consult maxFetchLimit b = c.finish .nothingToAnchor ∨
    ∃ oldest, b.oldest? = some oldest ∧
      (b.missing = 0 ∧
          c.consult maxFetchLimit b = c.finish (.complete c.inserted c.attempts) ∨
        0 < b.missing ∧ c.budget ≤ c.attempts ∧
          c.consult maxFetchLimit b = c.finish (.exhausted c.inserted c.attempts) ∨
        0 < b.missing ∧ c.attempts < c.budget ∧
          c.consult maxFetchLimit b =
            { c with
              attempts := c.attempts + 1
              phase := .fetching oldest (min maxFetchLimit (b.missing + 1)) }) := by
  unfold Cycle.consult
  cases b.oldest? with
  | none => exact .inl ⟨rfl, rfl⟩
  | some oldest =>
    refine .inr ⟨oldest, rfl, ?_⟩
    by_cases full : b.missing = 0
    · exact .inl ⟨full, if_pos full⟩
    · have room := Nat.pos_of_ne_zero full
      by_cases spent : c.budget ≤ c.attempts
      · exact .inr (.inl ⟨room, spent, (if_neg full).trans (if_pos spent)⟩)
      · exact .inr (.inr ⟨room, Nat.lt_of_not_le spent, (if_neg full).trans (if_neg spent)⟩)

omit [Scalar α] in
/-- With room and an attempt left a look leads to a fetch. -/
theorem consult_of_room {c : Cycle} {maxFetchLimit : Nat} {b : Builder α} {oldest : Int}
    (found : b.oldest? = some oldest) (room : 0 < b.missing) (unspent : c.attempts < c.budget) :
    c.consult maxFetchLimit b =
      { c with
        attempts := c.attempts + 1
        phase := .fetching oldest (min maxFetchLimit (b.missing + 1)) } := by
  rw [Cycle.consult, found]
  simp [room.ne', unspent.not_ge]

omit [Scalar α] in
theorem inserted_consult (c : Cycle) (maxFetchLimit : Nat) (b : Builder α) :
    (c.consult maxFetchLimit b).inserted = c.inserted := by
  obtain ⟨-, looked⟩ | ⟨_, -, ⟨-, looked⟩ | ⟨-, -, looked⟩ | ⟨-, -, looked⟩⟩ :=
    consult_cases c maxFetchLimit b
  all_goals simp only [looked, Cycle.finish]

section Run

variable {answers : Int → Nat → Option (List (Bar α)) → Prop} {maxFetchLimit : Nat}
  {start : Builder α} {base : List (Bar α)} {events : List (Event α)} {s s' : Shared α}

theorem Step.answered {bars added : List (Bar α)} {all : List (Bar α)}
    (step : Step answers maxFetchLimit s (.answer bars added) s') (shown : s.builder.Shows all) :
    added = s.builder.added (inTimeOrder (·.timestamp) bars) ∧
      s'.builder = (s.builder.prepend (inTimeOrder (·.timestamp) bars)).2 ∧
      s'.cycle.inserted =
        s.cycle.inserted + (s.builder.prepend (inTimeOrder (·.timestamp) bars)).1 ∧
      s'.cycle.phase = .reading := by
  cases step with
  | answer _ _ received =>
    cases received
    refine ⟨?_, rfl, rfl, rfl⟩
    rw [← shown.take_prepend, Nat.add_sub_cancel_left]
    rfl

/-- Bars that come in order go in as they are. -/
theorem receive_in_order {bars : List (Bar α)} (sorted : bars.Pairwise (·.timestamp ≤ ·.timestamp))
    (c : Cycle) (b : Builder α) :
    c.receive (some bars) b =
      ({ c with inserted := c.inserted + (b.prepend bars).1, phase := .reading },
        (b.prepend bars).2) := by
  rw [Cycle.receive, TimeOrder.inTimeOrder_of_pairwise Bar.timestamp sorted]

theorem Step.answer_in_order (s : Shared α) {upTo : Int} {limit : Nat} {bars : List (Bar α)}
    (fetching : s.cycle.phase = .fetching upTo limit) (possible : answers upTo limit (some bars))
    (sorted : bars.Pairwise (·.timestamp ≤ ·.timestamp)) :
    let prepended := s.builder.prepend bars
    Step answers maxFetchLimit s (.answer bars (prepended.2.bars.take prepended.1))
      ⟨prepended.2,
        { s.cycle with inserted := s.cycle.inserted + prepended.1, phase := .reading }⟩ := by
  have received := receive_in_order sorted s.cycle s.builder
  have step : Step answers maxFetchLimit s _ _ := .answer s fetching possible received
  rwa [Nat.add_sub_cancel_left] at step

theorem Run.kept (run : Run answers maxFetchLimit start events s) (shown : start.Shows base) :
    Kept start base (inserted events) (feedAll start.threshold base (trades events)) s := by
  induction run with
  | start => exact .initial shown
  | @next events s s' event _ step kept =>
    rw [trades_concat, inserted_concat, feedAll, List.foldl_append]
    cases step with
    | trade t => exact kept.trade t
    | look => exact { kept with counted := (inserted_consult _ _ _).trans kept.counted }
    | failure => exact { kept with }
    | resume => exact { kept with }
    | answer fetching possible received =>
      have step : Step answers maxFetchLimit s _ _ := .answer s fetching possible received
      obtain ⟨added, rfl, count, -⟩ := step.answered kept.shown
      change Kept _ _ (_ ++ _) _ _
      rw [added]
      exact kept.answer (TimeOrder.pairwise_inTimeOrder _ _) count

theorem Run.fetched (run : Run answers maxFetchLimit start events s) (shown : start.Shows base)
    {bar : Bar α} (member : bar ∈ inserted events) :
    ∃ bars added, Event.answer bars added ∈ events ∧ bar ∈ bars := by
  induction run with
  | start => contradiction
  | @next events s s' event run step ih =>
    rw [inserted_concat] at member
    rcases List.mem_append.mp member with new | old
    · cases event with
      | answer bars added =>
        obtain ⟨rfl, -⟩ := step.answered (run.kept shown).shown
        have inside := (TimeOrder.mem_inTimeOrder _).mp (mem_added new).1
        exact ⟨bars, _, List.mem_append_right _ List.mem_cons_self, inside⟩
      | trade | look | failure | resume => contradiction
    · obtain ⟨bars, added, answered, inside⟩ := ih old
      exact ⟨bars, added, List.mem_append_left _ answered, inside⟩

/-- With room at the start, the first of the live bars stays the one that was the oldest. -/
theorem head?_live (shown : start.Shows base) {oldest : Int} (found : start.oldest? = some oldest)
    (room : base.length < start.capacity) (ts : List (Trade α)) :
    (feedAll start.threshold base ts).head?.map (·.timestamp) = some oldest := by
  rw [oldest?_eq (shown.holds_of_length_le room.le)] at found
  exact LiveBars.head?_feedAll start.threshold found ts

/-- Whatever goes in is older than the bar that was the oldest at the start. -/
theorem Run.older_than_oldest (run : Run answers maxFetchLimit start events s)
    (shown : start.Shows base) {oldest : Int} (found : start.oldest? = some oldest) {bar : Bar α}
    (member : bar ∈ inserted events) : bar.timestamp < oldest := by
  have kept := run.kept shown
  have anchor := head?_live shown found (kept.room (List.ne_nil_of_mem member)) (trades events)
  obtain ⟨first, isFirst, lt⟩ := kept.older bar member
  rw [isFirst] at anchor
  exact (Option.some.inj anchor) ▸ lt

/-- Whatever the source answers and wherever the trades come in between, nothing of them is
lost, doubled or changed: the series has the newest of the bars put in, which are consistent,
in order, and older than what was there, and after them those of all trades. -/
theorem bars_of_shared {capacity : Nat} {threshold : UInt32} {b : Builder α}
    (made : Builder.new capacity threshold = .ok b) (before : List (Trade α))
    (run : Run answers maxFetchLimit (b.addTrades before) events s) :
    let history := inserted events
    let live := liveBars threshold (before ++ trades events)
    s.builder.bars = (history ++ live).rtake (min capacity (history.length + live.length)) ∧
      history.Pairwise (·.timestamp ≤ ·.timestamp) ∧
      ∀ bar ∈ history, bar.isConsistent = true ∧
        (∀ oldest, (b.addTrades before).oldest? = some oldest → bar.timestamp < oldest) ∧
        (∃ first, live.head? = some first ∧ bar.timestamp < first.timestamp) ∧
        ∃ bars added, Event.answer bars added ∈ events ∧ bar ∈ bars := by
  intro history live
  obtain ⟨-, size, rfl, someTrades⟩ := shows_of_new made
  have shown := shows_liveBars made before
  have kept := run.kept shown
  rw [threshold_addTrades, ← LiveBars.liveBars_append someTrades] at kept
  have bars := kept.shown.bars_eq
  rw [kept.capacity, capacity_addTrades, size] at bars
  refine ⟨?_, kept.ordered, ?_⟩
  · rw [bars, ← rtake_min_length, List.length_append]
  · intro bar member
    exact ⟨kept.consistent bar member,
      fun oldest found => run.older_than_oldest shown found member,
      kept.older bar member, run.fetched shown member⟩

/-- The answer comes when a second bar is open already, so only one bar goes in; it is given up
for the third one. -/
theorem bars_of_shared_after_eviction :
    let trade (i : Int) : Trade Float := ⟨i, 1, 1, .buy, "BTC-USDT"⟩
    let b : Builder Float := ⟨.empty 3, 2⟩
    ∃ (events : List (Event Float)) (s : Shared Float),
      Builder.new 3 2 = .ok b ∧
      Run (fun _ _ _ => True) 1000 (b.addTrades [trade 10, trade 11]) events s ∧
      (inserted events).map (·.timestamp) = [9] ∧
      s.builder.bars.map (·.timestamp) = [10, 12, 14] := by
  intro trade b
  have made : Builder.new 3 2 = .ok b := rfl
  have sorted : ([7, 8, 9, 12].map fun i => Bar.ofTrade (trade i)).Pairwise
    (·.timestamp ≤ ·.timestamp) := by decide
  have looked : Run (fun _ _ _ => True) 1000 (b.addTrades [trade 10, trade 11]) _ _ :=
    .next .start (.look _ rfl)
  have answered := Run.next (looked.next (.trade _ (trade 12)))
    (.answer_in_order _ rfl trivial sorted)
  have run := (answered.next (.trade _ (trade 13))).next (.trade _ (trade 14))
  obtain ⟨bars, -, -⟩ := bars_of_shared made [trade 10, trade 11] run
  refine ⟨_, _, made, run, by decide +kernel, ?_⟩
  rw [bars]
  decide +kernel

end Run

end TradeBars.Backfill
