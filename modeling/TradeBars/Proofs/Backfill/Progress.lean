import TradeBars.Proofs.Backfill.Budget
import TradeBars.Proofs.Config.Validity

/-! What one fetch brings when no trade comes in between. The source gives the newest bars up to
the oldest one of the series, and that one is among them; so a fetch brings one bar less than it
asks for, and a fetch for a single bar brings nothing. -/
namespace TradeBars.Backfill
open Builder Newest

variable {α : Type} [Scalar α] {history : List (Bar α)} {maxFetchLimit : Nat} {s s' : Shared α}
  {anchor : Bar α}

/-- An answer from a history is the newest part of it, as much as was asked for. -/
theorem Step.page {upTo : Int} {limit : Nat} {bars added : List (Bar α)}
    (step : Step (Faithful history) maxFetchLimit s (.answer bars added) s')
    (fetching : s.cycle.phase = .fetching upTo limit) :
    bars = Source.newest history upTo limit := by
  cases step with
  | answer fetching' possible =>
    cases fetching.symm.trans fetching'
    obtain noPage | page := possible
    · contradiction
    · exact Option.some.inj page

section Fetch

variable (sorted : history.Pairwise (·.timestamp < ·.timestamp))
  (consistent : ∀ bar ∈ history, bar.isConsistent = true) (member : anchor ∈ history)
  (shown : s.builder.Shows s.builder.bars) (found : s.builder.oldest? = some anchor.timestamp)
include sorted consistent member shown found

theorem Step.brought {gain : Nat} {bars added : List (Bar α)}
    (step : Step (Faithful history) maxFetchLimit s (.answer bars added) s')
    (fetching : s.cycle.phase = .fetching anchor.timestamp (gain + 1)) :
    added = (earlier history anchor.timestamp).rtake (min gain s.builder.missing) ∧
      s'.builder.bars = added ++ s.builder.bars := by
  have page := step.page fetching
  have inOrder := TimeOrder.inTimeOrder_of_pairwise Bar.timestamp
    ((pairwise_newest sorted anchor.timestamp (gain + 1)).imp Int.le_of_lt)
  obtain ⟨added_eq, -⟩ := step.answered shown
  rw [page, inOrder, added_newest sorted consistent member found] at added_eq
  exact ⟨added_eq, step.pushed shown⟩

/-- A look and the answer to its fetch. -/
theorem Path.fetched (room : 0 < s.builder.missing) (unspent : s.cycle.attempts < s.cycle.budget)
    {gain : Nat} {call : Option (Int × Nat)} {bars added : List (Bar α)}
    (path : Path (Faithful history) (gain + 1) s [.look call, .answer bars added] s') :
    call = some (anchor.timestamp, min gain s.builder.missing + 1) ∧
      added = (earlier history anchor.timestamp).rtake (min gain s.builder.missing) ∧
      s'.builder.bars = added ++ s.builder.bars := by
  have asked : s.cycle.consult (gain + 1) s.builder = _ := consult_of_room found room unspent
  rw [Nat.add_min_add_right] at asked
  obtain _ | ⟨looked, -, _ | ⟨answered, -, _ | _⟩⟩ := path
  cases looked with
  | look =>
    have brought := Step.brought (s := ⟨s.builder, s.cycle.consult (gain + 1) s.builder⟩) sorted
      consistent member shown found answered (congrArg Cycle.phase asked)
    rw [Nat.min_eq_left (Nat.min_le_right gain s.builder.missing)] at brought
    exact ⟨congrArg (·.phase.call?) asked, brought⟩

end Fetch

omit [Scalar α] in
theorem rtake_earlier_eq_nil_iff {time : Int} (older : ∃ bar ∈ history, bar.timestamp < time)
    {gain room : Nat} (positive : 0 < room) :
    (earlier history time).rtake (min gain room) = [] ↔ gain = 0 := by
  obtain ⟨bar, inside, lt⟩ := older
  have anyEarlier : 0 < (earlier history time).length :=
    List.length_pos_of_mem (List.mem_filter.mpr ⟨inside, decide_eq_true lt⟩)
  rw [← List.length_eq_zero_iff, length_rtake]
  omega

theorem exists_fetch (reading : s.cycle.phase = .reading) {oldest : Int}
    (found : s.builder.oldest? = some oldest) (room : 0 < s.builder.missing)
    (unspent : s.cycle.attempts < s.cycle.budget) :
    ∃ call bars added s',
      Path (Faithful history) maxFetchLimit s [.look call, .answer bars added] s' := by
  have asked : s.cycle.consult maxFetchLimit s.builder = _ := consult_of_room found room unspent
  exact ⟨_, _, _, _, .cons (.look s reading) rfl
    (.single (.answer _ (congrArg Cycle.phase asked) (.inr rfl) rfl) rfl)⟩

/-- With settings that pass the check, a series that has a bar but is not full, and an attempt
left, there is a fetch. It brings the newest bars before the oldest one, one less than the largest
page has, or as many as are missing. So it brings something unless the largest page is one bar. -/
theorem fetch_brings_older {config : Config} (valid : config.fault? = none)
    (sorted : history.Pairwise (·.timestamp < ·.timestamp))
    (consistent : ∀ bar ∈ history, bar.isConsistent = true) (reached : s.builder.Reachable)
    (reading : s.cycle.phase = .reading) (unspent : s.cycle.attempts < s.cycle.budget)
    (room : s.builder.bars.length < s.builder.capacity) (member : anchor ∈ history)
    (found : s.builder.bars.head?.map (·.timestamp) = some anchor.timestamp)
    (older : ∃ bar ∈ history, bar.timestamp < anchor.timestamp) :
    let most := config.backfill.maxFetchLimit.toNat
    let missing := s.builder.capacity - s.builder.bars.length
    let news := (history.filter (·.timestamp < anchor.timestamp)).rtake (min (most - 1) missing)
    (∃ call bars added s',
      Path (Faithful history) most s [.look call, .answer bars added] s') ∧
    (∀ call bars added s', Path (Faithful history) most s [.look call, .answer bars added] s' →
      call = some (anchor.timestamp, min most (missing + 1)) ∧ added = news ∧
        s'.builder.bars = news ++ s.builder.bars) ∧
    (news ≠ [] ↔ config.backfill.maxFetchLimit ≠ 1) := by
  intro most missing news
  obtain ⟨-, -, positive, -⟩ := Config.fault?_eq_none_iff.mp valid
  have shown := reached.shows
  have missing_eq : s.builder.missing = missing := shown.missing_eq
  have free : 0 < s.builder.missing := by omega
  rw [← firstTime, ← oldest?_eq_firstTime shown] at found
  obtain ⟨gain, size⟩ : ∃ gain, most = gain + 1 := Nat.exists_eq_add_of_le' positive
  have news_eq : news = (earlier history anchor.timestamp).rtake (min gain missing) := by
    rw [← Nat.add_sub_cancel gain 1, ← size]
    rfl
  refine ⟨exists_fetch reading found free unspent, ?_, ?_⟩
  · intro call bars added s' path
    rw [size] at path
    obtain ⟨rfl, rfl, pushed⟩ := path.fetched sorted consistent member shown found free unspent
    rw [missing_eq, ← news_eq] at pushed
    rw [size, Nat.add_min_add_right, missing_eq]
    exact ⟨rfl, news_eq.symm, pushed⟩
  · rw [news_eq, Ne, rtake_earlier_eq_nil_iff older (missing_eq ▸ free), Ne, ← UInt64.toNat_inj]
    change _ ↔ ¬ most = 1
    omega

theorem fetch_brings_older_two :
    let trade (i : Int) : Trade Float := ⟨i, 1, 1, .buy, "BTC-USDT"⟩
    let history := [7, 8, 9, 10].map fun i => Bar.ofTrade (trade i)
    let config : Config := { backfill := ⟨1000, 2⟩ }
    let start : Builder Float := Builder.addTrades ⟨.empty 3, 1⟩ [trade 10]
    let s : Shared Float := ⟨start, .start start.capacity⟩
    config.fault? = none ∧ history.Pairwise (·.timestamp < ·.timestamp) ∧
      (∀ bar ∈ history, bar.isConsistent = true) ∧ start.Reachable ∧
      ∃ bars added s', Path (Faithful history) 2 s [.look (some (10, 2)), .answer bars added] s' ∧
        added.map (·.timestamp) = [9] ∧ s'.builder.bars.map (·.timestamp) = [9, 10] := by
  intro trade history config start s
  have valid : config.fault? = none := by decide
  have sorted : history.Pairwise (·.timestamp < ·.timestamp) := by decide
  have consistent : ∀ bar ∈ history, bar.isConsistent = true := by decide
  have reached : start.Reachable := .addTrade (trade 10) (.new (new_eq (by decide) (by decide) rfl))
  have member : Bar.ofTrade (trade 10) ∈ history := List.mem_map_of_mem (by decide)
  have older : ∃ bar ∈ history, bar.timestamp < 10 :=
    ⟨_, List.mem_map_of_mem (List.mem_cons_self), by decide⟩
  obtain ⟨⟨call, bars, added, s', path⟩, fetched, -⟩ := fetch_brings_older (s := s) valid sorted
    consistent reached rfl (by decide) (by decide) member rfl older
  obtain ⟨rfl, rfl, pushed⟩ := fetched _ _ _ _ path
  refine ⟨valid, sorted, consistent, reached, _, _, _, path, by decide, ?_⟩
  rw [pushed]
  decide

/-- A page of one bar has only the bar that is there already, so that a whole cycle brings nothing
from a source that has all that is missing. -/
theorem fetch_of_one_brings_nothing :
    let trade (i : Int) : Trade Float := ⟨i, 1, 1, .buy, "BTC-USDT"⟩
    let history := [7, 8, 9, 10].map fun i => Bar.ofTrade (trade i)
    let config : Config := { backfill := ⟨1000, 1⟩ }
    let start : Builder Float := Builder.addTrades ⟨.empty 3, 1⟩ [trade 10]
    let s : Shared Float := ⟨start, .start start.capacity⟩
    config.fault? = none ∧ history.Pairwise (·.timestamp < ·.timestamp) ∧
      (∀ bar ∈ history, bar.isConsistent = true) ∧ start.Reachable ∧
      (∃ bars s', Path (Faithful history) 1 s [.look (some (10, 1)), .answer bars []] s' ∧
        s'.builder.bars = start.bars) ∧
      (fill config.backfill (Source.ofHistory 0 0 history) start).1.cycle.phase =
        .finished (.exhausted 0 1) := by
  intro trade history config start s
  have sorted : history.Pairwise (·.timestamp < ·.timestamp) := by decide
  have consistent : ∀ bar ∈ history, bar.isConsistent = true := by decide
  have reached : start.Reachable := .addTrade (trade 10) (.new (new_eq (by decide) (by decide) rfl))
  have member : Bar.ofTrade (trade 10) ∈ history := List.mem_map_of_mem (by decide)
  have serves : (Source.ofHistory 0 0 history).Serves history := Source.serves_ofHistory 0 history
  have supplied : Supplied history start := ⟨reached.shows, _, member, rfl, by decide⟩
  obtain ⟨call, bars, added, s', path⟩ := exists_fetch (s := s) rfl rfl (by decide) (by decide)
  obtain ⟨rfl, rfl, pushed⟩ :=
    Path.fetched sorted consistent member reached.shows rfl (by decide) (by decide) path
  have settles : Settles 0 (attemptBudget start.capacity) (.start start.capacity 0) start
      (fill config.backfill (Source.ofHistory 0 0 history) start) :=
    fill_settles rfl serves sorted consistent supplied
  exact ⟨by decide, sorted, consistent, reached, ⟨_, _, path, pushed⟩,
    settles.phase.trans (by decide)⟩

end TradeBars.Backfill
