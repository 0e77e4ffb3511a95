import TradeBars.Backfill.Source
import TradeBars.Proofs.Backfill.Sharing

/-! A cycle whose source serves one history, with failures at any time. What the cycle puts
in is the newest part of the history before the first oldest bar, without a gap, although
trades may take bars away from the builder while a fetch is under way. -/
namespace TradeBars.Backfill
open Builder Newest

variable {α : Type} {history : List (Bar α)}

/-- Each fetch fails or gives the newest bars of a history. -/
def Faithful (history : List (Bar α)) (upTo : Int) (limit : Nat)
    (reply : Option (List (Bar α))) : Prop :=
  reply = none ∨ reply = some (Source.newest history upTo limit)

def earlier (history : List (Bar α)) (time : Int) : List (Bar α) :=
  history.filter (·.timestamp < time)

section History

theorem earlier_filter {p : Bar α → Bool} {time : Int}
    (passes : ∀ bar, bar.timestamp < time → p bar = true) :
    earlier (history.filter p) time = earlier history time := by
  rw [earlier, earlier, List.filter_filter]
  apply List.filter_congr
  intro bar _
  rw [Bool.and_eq_left_iff_imp, decide_eq_true_eq]
  exact passes bar

/-- The extra bar of a page is the one at its end. -/
theorem earlier_newest_suffix (history : List (Bar α)) (time : Int) (limit : Nat) :
    earlier (Source.newest history time limit) time <:+ earlier history time := by
  have page : Source.newest history time limit <:+ history.filter (·.timestamp ≤ time) :=
    List.drop_suffix _ _
  have within : earlier (history.filter (·.timestamp ≤ time)) time = earlier history time :=
    earlier_filter fun _ lt => decide_eq_true lt.le
  rw [← within]
  exact page.filter _

theorem pairwise_newest {r : Bar α → Bar α → Prop} (sorted : history.Pairwise r) (upTo : Int)
    (limit : Nat) : (Source.newest history upTo limit).Pairwise r :=
  (sorted.filter _).drop

theorem earlier_append_cons {front back : List (Bar α)} {bar : Bar α}
    (sorted : (front ++ bar :: back).Pairwise (·.timestamp < ·.timestamp)) :
    earlier (front ++ bar :: back) bar.timestamp = front := by
  obtain ⟨-, fromBar, across⟩ := List.pairwise_append.mp sorted
  rw [earlier, List.filter_append]
  have all : front.filter (·.timestamp < bar.timestamp) = front := by
    rw [List.filter_eq_self]
    intro older member
    exact decide_eq_true (across older member bar List.mem_cons_self)
  have noneEarlier : (bar :: back).filter (·.timestamp < bar.timestamp) = [] := by
    rw [List.filter_eq_nil_iff]
    intro later member
    rw [decide_eq_true_eq, Int.not_lt]
    rcases List.mem_cons.mp member with rfl | later'
    · exact Int.le_refl _
    · exact ((List.pairwise_cons.mp fromBar).1 later later').le
  rw [all, noneEarlier, List.append_nil]

/-- What a part leaves out is what is earlier than its first bar. -/
theorem earlier_append_of_suffix (sorted : history.Pairwise (·.timestamp < ·.timestamp))
    {bar : Bar α} {rest : List (Bar α)} {time : Int} (part : bar :: rest <:+ earlier history time) :
    earlier history bar.timestamp ++ bar :: rest = earlier history time := by
  obtain ⟨front, split⟩ := part
  have before : bar.timestamp < time := by
    have member : bar ∈ earlier history time := split ▸ by simp
    exact of_decide_eq_true (List.mem_filter.mp member).2
  have ordered : (front ++ bar :: rest).Pairwise (·.timestamp < ·.timestamp) :=
    split ▸ sorted.filter _
  have within : earlier (earlier history time) bar.timestamp = earlier history bar.timestamp :=
    earlier_filter fun _ lt => decide_eq_true (lt.trans before)
  rw [← within, ← split, earlier_append_cons ordered]

/-- Pages meet: what ends right before the first bar of a part extends that part. -/
theorem append_suffix_earlier (sorted : history.Pairwise (·.timestamp < ·.timestamp))
    {bar : Bar α} {rest bars : List (Bar α)} {time : Int}
    (part : bar :: rest <:+ earlier history time) (page : bars <:+ earlier history bar.timestamp) :
    bars ++ bar :: rest <:+ earlier history time := by
  obtain ⟨older, split⟩ := page
  exact ⟨older, by rw [← List.append_assoc, split, earlier_append_of_suffix sorted part]⟩

end History

variable [Scalar α]

theorem eligible_newest {b : Builder α} {oldest : Int} (found : b.oldest? = some oldest)
    (consistent : ∀ bar ∈ history, bar.isConsistent = true) (limit : Nat) :
    b.eligible (Source.newest history oldest limit) =
      earlier (Source.newest history oldest limit) oldest := by
  rw [Builder.eligible, found, earlier]
  apply List.filter_congr
  intro bar member
  have inside : bar ∈ history := List.mem_of_mem_filter (List.mem_of_mem_drop member)
  rw [consistent bar inside, Bool.and_true]

theorem added_newest_suffix {b : Builder α} {oldest : Int} (found : b.oldest? = some oldest)
    (consistent : ∀ bar ∈ history, bar.isConsistent = true) (limit : Nat) :
    b.added (Source.newest history oldest limit) <:+ earlier history oldest := by
  rw [added, eligible_newest found consistent]
  exact (rtake_suffix _ _).trans (earlier_newest_suffix history oldest limit)

/-- What a run with a faithful source keeps besides. A fetch asks for bars up to the first of
all bars, whichever trades came since the look that led to it. -/
structure Contiguous (history : List (Bar α)) (oldest : Int) (before live : List (Bar α))
    (c : Cycle) : Prop where
  part : before <:+ earlier history oldest
  anchored : ∀ upTo limit, c.phase = .fetching upTo limit →
    (before ++ live).head?.map (·.timestamp) = some upTo
  reported : ∀ k attempts, c.phase = .finished (.complete k attempts) ∨
    c.phase = .finished (.exhausted k attempts) → c.inserted = k

namespace Contiguous

variable {oldest : Int} {before live : List (Bar α)} {c : Cycle}

omit [Scalar α] in
theorem of_idle (part : before <:+ earlier history oldest)
    (idle : c.phase = .reading ∨ c.phase = .pausing) :
    Contiguous history oldest before live c where
  part := part
  anchored := by
    intro upTo limit fetching
    rcases idle with idle | idle <;> rw [idle] at fetching <;> contradiction
  reported := by
    intro k attempts ended
    rcases idle with idle | idle <;> rw [idle] at ended <;> rcases ended with ended | ended <;>
      contradiction

omit [Scalar α] in
theorem finish (contiguous : Contiguous history oldest before live c) {outcome : Outcome}
    (reported : ∀ k attempts, outcome = .complete k attempts ∨ outcome = .exhausted k attempts →
      c.inserted = k) : Contiguous history oldest before live (c.finish outcome) where
  part := contiguous.part
  anchored := by
    intro upTo limit fetching
    contradiction
  reported := by
    intro k attempts ended
    rw [Cycle.finish, Phase.finished.injEq, Phase.finished.injEq] at ended
    exact reported k attempts ended

theorem trade (contiguous : Contiguous history oldest before live c) (threshold : UInt32)
    (t : Trade α) : Contiguous history oldest before (feed threshold live t) c where
  part := contiguous.part
  anchored := by
    intro upTo limit fetching
    have anchor := contiguous.anchored upTo limit fetching
    cases before with
    | cons bar rest => exact anchor
    | nil => exact LiveBars.head?_feed threshold anchor t
  reported := contiguous.reported

omit [Scalar α] in
theorem look (contiguous : Contiguous history oldest before live c) {b : Builder α}
    (shown : b.Shows (before ++ live)) (maxFetchLimit : Nat) :
    Contiguous history oldest before live (c.consult maxFetchLimit b) := by
  obtain ⟨-, looked⟩ | ⟨anchor, found, ⟨-, looked⟩ | ⟨-, -, looked⟩ | ⟨room, -, looked⟩⟩ :=
    consult_cases c maxFetchLimit b
  · rw [looked]
    exact contiguous.finish (by rintro k attempts (ended | ended) <;> cases ended)
  · rw [looked]
    exact contiguous.finish (by rintro k attempts (ended | ended) <;> cases ended; rfl)
  · rw [looked]
    exact contiguous.finish (by rintro k attempts (ended | ended) <;> cases ended; rfl)
  · rw [looked]
    refine ⟨contiguous.part, ?_, ?_⟩
    · intro upTo limit fetching
      cases fetching
      exact (shown.oldest?_of_room room).symm.trans found
    · rintro k attempts (ended | ended) <;> cases ended

/-- The builder is as the last look found it at its old end, if anything goes in. -/
theorem part_of_answer {s : Shared α} (contiguous : Contiguous history oldest before live s.cycle)
    (sorted : history.Pairwise (·.timestamp < ·.timestamp))
    (consistent : ∀ bar ∈ history, bar.isConsistent = true)
    (shown : s.builder.Shows (before ++ live)) {upTo : Int} {limit : Nat}
    (fetching : s.cycle.phase = .fetching upTo limit)
    (anchored : 0 < s.builder.missing → live.head?.map (·.timestamp) = some oldest) :
    s.builder.added (Source.newest history upTo limit) ++ before <:+ earlier history oldest := by
  by_cases noneAdded : s.builder.added (Source.newest history upTo limit) = []
  · rw [noneAdded]
    exact contiguous.part
  · have room := missing_pos_of_added _ noneAdded
    have anchor := contiguous.anchored upTo limit fetching
    have page := added_newest_suffix ((shown.oldest?_of_room room).trans anchor) consistent limit
    cases before with
    | nil =>
      cases anchor.symm.trans (anchored room)
      rwa [List.append_nil]
    | cons bar rest =>
      cases anchor
      exact append_suffix_earlier sorted contiguous.part page

end Contiguous

section Run

variable {maxFetchLimit : Nat} {start : Builder α} {base : List (Bar α)} {events : List (Event α)}
  {s : Shared α}

theorem Run.contiguous (run : Run (Faithful history) maxFetchLimit start events s)
    (sorted : history.Pairwise (·.timestamp < ·.timestamp))
    (consistent : ∀ bar ∈ history, bar.isConsistent = true) (shown : start.Shows base)
    {oldest : Int} (found : start.oldest? = some oldest) :
    Contiguous history oldest (inserted events) (feedAll start.threshold base (trades events))
      s.cycle := by
  induction run with
  | start => exact .of_idle List.nil_suffix (.inl rfl)
  | @next events s s' event run step ih =>
    have kept := run.kept shown
    rw [trades_concat, inserted_concat, feedAll, List.foldl_append]
    cases step with
    | trade t => exact ih.trade _ t
    | look => exact ih.look kept.shown _
    | failure => exact .of_idle ih.part (.inr rfl)
    | resume => exact .of_idle ih.part (.inl rfl)
    | @answer upTo limit bars _ _ fetching faithful received =>
      have step : Step (Faithful history) maxFetchLimit s _ _ :=
        .answer s fetching faithful received
      obtain ⟨added, -, -, reading⟩ := step.answered kept.shown
      obtain rfl : bars = Source.newest history upTo limit := by
        rcases faithful with failed | served
        · contradiction
        · exact Option.some.inj served
      have page := (pairwise_newest sorted upTo limit).imp Int.le_of_lt
      have inOrder := TimeOrder.inTimeOrder_of_pairwise Bar.timestamp page
      change Contiguous _ _ (_ ++ _) _ _
      rw [added, inOrder]
      refine .of_idle ?_ (.inl reading)
      apply ih.part_of_answer sorted consistent kept.shown fetching
      intro room
      have fits := kept.shown.length_lt room
      rw [List.length_append, kept.capacity] at fits
      exact head?_live shown found (by have := kept.grown; omega) _

/-- When a cycle ends with `k` bars put in, these are the newest `k` bars of the history before
the oldest bar of the start, whatever the failures and the trades in between; the series has
the newest of them and the live bars. `base` are the live bars at the start, of which the
series has the newest. -/
theorem leaves_no_gap (sorted : history.Pairwise (·.timestamp < ·.timestamp))
    (consistent : ∀ bar ∈ history, bar.isConsistent = true) (reached : start.Reachable)
    {oldest : Int} (found : start.oldest? = some oldest)
    (run : Run (Faithful history) maxFetchLimit start events s) {k attempts : Nat}
    (ended : s.cycle.phase = .finished (.complete k attempts) ∨
      s.cycle.phase = .finished (.exhausted k attempts)) :
    inserted events = (history.filter (·.timestamp < oldest)).rtake k ∧
      (inserted events).length = k ∧
      ∀ base, start.bars = base.rtake start.capacity →
        let live := feedAll start.threshold base (trades events)
        s.builder.bars =
          (inserted events ++ live).rtake (min start.capacity (k + live.length)) := by
  have contiguous := run.contiguous sorted consistent reached.shows found
  have counted := (run.kept reached.shows).counted
  rw [contiguous.reported k attempts ended] at counted
  refine ⟨?_, counted.symm, ?_⟩
  · rw [counted]
    exact eq_rtake_of_suffix contiguous.part
  · intro base same live
    have kept := run.kept (reached.shows_of_bars same)
    rw [kept.shown.bars_eq, kept.capacity, ← rtake_min_length, List.length_append, counted]

/-- A trade takes one of three free places while the bars before the first one are on their
way. -/
theorem leaves_no_gap_around_a_trade :
    let trade (i : Int) : Trade Float := ⟨i, 1, 1, .buy, "BTC-USDT"⟩
    let history := [5, 6, 7, 8, 9, 10].map fun i => Bar.ofTrade (trade i)
    let start : Builder Float := Builder.addTrades ⟨.empty 4, 1⟩ [trade 10]
    ∃ (events : List (Event Float)) (s : Shared Float),
      history.Pairwise (·.timestamp < ·.timestamp) ∧
      (∀ bar ∈ history, bar.isConsistent = true) ∧ start.Reachable ∧ start.oldest? = some 10 ∧
      Run (Faithful history) 1000 start events s ∧
      s.cycle.phase = .finished (.complete 2 1) ∧
      (inserted events).map (·.timestamp) = [8, 9] ∧
      s.builder.bars.map (·.timestamp) = [8, 9, 10, 11] := by
  intro trade history start
  have sorted : history.Pairwise (·.timestamp < ·.timestamp) := by decide
  have consistent : ∀ bar ∈ history, bar.isConsistent = true := by decide
  have reached : start.Reachable := .addTrade (trade 10) (.new (new_eq (by decide) (by decide) rfl))
  have page : ([7, 8, 9, 10].map fun i => Bar.ofTrade (trade i)).Pairwise
    (·.timestamp ≤ ·.timestamp) := by decide
  have looked : Run (Faithful history) 1000 start _ _ := .next .start (.look _ rfl)
  have answered := Run.next (looked.next (.trade _ (trade 11)))
    (.answer_in_order _ rfl (.inr rfl) page)
  have run := answered.next (.look _ rfl)
  obtain ⟨newest, -, bars⟩ := leaves_no_gap sorted consistent reached rfl run
    (.inl (show _ = Phase.finished (.complete 2 1) by decide +kernel))
  refine ⟨_, _, sorted, consistent, reached, rfl, run, by decide +kernel, ?_, ?_⟩
  · rw [newest]
    decide +kernel
  · rw [bars start.bars (rtake_of_length_le (by decide)).symm]
    decide +kernel

end Run

end TradeBars.Backfill
