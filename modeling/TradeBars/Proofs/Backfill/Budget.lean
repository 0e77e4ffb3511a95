import TradeBars.Proofs.Backfill.Contiguity
import TradeBars.Proofs.Backfill.Task

/-! How far the attempts of a cycle go when the source never fails. A page has one bar more than
it brings, namely the one that is there already; so a page of 1000 bars brings 999, while there
is only one attempt for each 1000 bars of the capacity, and one more. Main statement: the series
gets full exactly if that is enough for what is missing. -/
namespace TradeBars.Backfill
open Builder Newest

variable {α : Type} {history : List (Bar α)}

/-- A source that answers each call from a history. -/
def Source.Serves (source : Source α) (history : List (Bar α)) : Prop :=
  ∀ call upTo limit, source.answer call upTo limit = some (Source.newest history upTo limit)

theorem Source.serves_ofHistory (delay : Nat) (history : List (Bar α)) :
    (Source.ofHistory delay 0 history).Serves history := fun _ _ _ => rfl

section Page

theorem newest_eq (sorted : history.Pairwise (·.timestamp < ·.timestamp)) {anchor : Bar α}
    (member : anchor ∈ history) (gain : Nat) :
    Source.newest history anchor.timestamp (gain + 1) =
      (earlier history anchor.timestamp).rtake gain ++ [anchor] := by
  obtain ⟨front, back, rfl⟩ := List.append_of_mem member
  obtain ⟨-, fromAnchor, across⟩ := List.pairwise_append.mp sorted
  have upTo : (front ++ anchor :: back).filter (·.timestamp ≤ anchor.timestamp) =
      front ++ [anchor] := by
    have all : front.filter (·.timestamp ≤ anchor.timestamp) = front := by
      rw [List.filter_eq_self]
      intro bar inside
      exact decide_eq_true (across bar inside anchor List.mem_cons_self).le
    have noneOlder : back.filter (·.timestamp ≤ anchor.timestamp) = [] := by
      rw [List.filter_eq_nil_iff]
      intro bar inside
      rw [decide_eq_true_eq, Int.not_le]
      exact (List.pairwise_cons.mp fromAnchor).1 bar inside
    simp [List.filter_append, all, noneOlder]
  rw [earlier_append_cons sorted, ← List.rtake_concat_succ, ← upTo]
  rfl

variable [Scalar α] {b : Builder α}

/-- The bars that a page brings: all but the one at its end. -/
theorem added_newest (sorted : history.Pairwise (·.timestamp < ·.timestamp))
    (consistent : ∀ bar ∈ history, bar.isConsistent = true) {anchor : Bar α}
    (member : anchor ∈ history) (found : b.oldest? = some anchor.timestamp) (gain : Nat) :
    b.added (Source.newest history anchor.timestamp (gain + 1)) =
      (earlier history anchor.timestamp).rtake (min gain b.missing) := by
  have page := newest_eq sorted member gain
  have ordered := pairwise_newest sorted anchor.timestamp (gain + 1)
  rw [added, eligible_newest found consistent]
  rw [page] at ordered ⊢
  rw [earlier_append_cons ordered, rtake_rtake]

end Page

section Supply

variable [Scalar α] {b : Builder α}

/-- The history has the oldest bar of the builder, and enough bars before it. -/
structure Supplied (history : List (Bar α)) (b : Builder α) : Prop where
  shown : b.Shows b.bars
  anchored : ∃ anchor ∈ history, b.oldest? = some anchor.timestamp ∧
    b.missing ≤ (earlier history anchor.timestamp).length

/-- A page brings its gain, or what is missing, and leaves enough for the next one. -/
theorem Supplied.prepend (supplied : Supplied history b)
    (sorted : history.Pairwise (·.timestamp < ·.timestamp))
    (consistent : ∀ bar ∈ history, bar.isConsistent = true) {oldest : Int}
    (found : b.oldest? = some oldest) (gain : Nat) :
    let filled := b.prepend (Source.newest history oldest (min gain b.missing + 1))
    filled.1 = min gain b.missing ∧ Supplied history filled.2 ∧
      filled.2.missing = b.missing - gain := by
  intro filled
  obtain ⟨anchor, member, isAnchor, enough⟩ := supplied.anchored
  obtain rfl : anchor.timestamp = oldest := Option.some.inj (isAnchor.symm.trans found)
  have page := added_newest sorted consistent member found (min gain b.missing)
  rw [Nat.min_eq_left (Nat.min_le_right _ _)] at page
  have brought : ((earlier history anchor.timestamp).rtake (min gain b.missing)).length =
      min gain b.missing := by
    rw [length_rtake]
    omega
  obtain ⟨count, held, -, capacity⟩ := prepend_holds supplied.shown
    (Source.newest history anchor.timestamp (min gain b.missing + 1))
  have shown := supplied.shown.prepend
    (Source.newest history anchor.timestamp (min gain b.missing + 1))
  have left : filled.2.missing = b.missing - gain := by
    rw [shown.missing_eq, capacity, page, List.length_append, brought, supplied.shown.missing_eq]
    omega
  rw [page, brought] at count
  refine ⟨count, ⟨shown.bars, ?_⟩, left⟩
  have first := oldest?_eq held
  rw [page] at first
  cases bars : (earlier history anchor.timestamp).rtake (min gain b.missing) with
  | nil =>
    rw [bars, List.nil_append, ← oldest?_eq supplied.shown] at first
    exact ⟨anchor, member, first.trans found, left ▸ (Nat.sub_le _ _).trans enough⟩
  | cons bar rest =>
    have part : bar :: rest <:+ earlier history anchor.timestamp := bars ▸ rtake_suffix _ _
    have split := congrArg List.length (earlier_append_of_suffix sorted part)
    rw [List.length_append, ← bars, brought] at split
    rw [bars] at first
    refine ⟨bar, List.mem_of_mem_filter (part.subset List.mem_cons_self), first, ?_⟩
    omega

end Supply

section Outcome

/-- How a cycle ends that has some attempts left, each for a page of the same gain. -/
def settled (gain left missing inserted attempts : Nat) : Outcome :=
  if missing ≤ gain * left then .complete (inserted + missing) (attempts + missing ⌈/⌉ gain)
  else .exhausted (inserted + gain * left) (attempts + left)

theorem settled_full (gain left inserted attempts : Nat) :
    settled gain left 0 inserted attempts = .complete inserted attempts := by
  simp [settled]

theorem settled_spent (gain inserted attempts : Nat) {missing : Nat} (room : 0 < missing) :
    settled gain 0 missing inserted attempts = .exhausted inserted attempts := by
  simp [settled, room.ne']

theorem ceilDiv_sub {gain missing : Nat} (positive : 0 < gain) (room : 0 < missing) :
    missing ⌈/⌉ gain = (missing - gain) ⌈/⌉ gain + 1 := by
  rcases Nat.le_total missing gain with last | more
  · rw [Nat.sub_eq_zero_of_le last, zero_ceilDiv]
    exact Chunks.ceilDiv_eq (by omega) (by omega)
  · have rest : missing + gain - 1 = missing - gain + gain - 1 + gain := by omega
    rw [Nat.ceilDiv_eq_add_pred_div, Nat.ceilDiv_eq_add_pred_div, rest,
      Nat.add_div_right _ positive]

theorem settled_succ (gain left inserted attempts : Nat) {missing : Nat} (room : 0 < missing) :
    settled gain (left + 1) missing inserted attempts =
      settled gain left (missing - gain) (inserted + min gain missing) (attempts + 1) := by
  have grown : gain * (left + 1) = gain * left + gain := Nat.mul_succ gain left
  unfold settled
  by_cases enough : missing ≤ gain * (left + 1)
  · have positive : 0 < gain := by
      apply Nat.pos_of_ne_zero
      rintro rfl
      omega
    rw [if_pos enough, if_pos (by omega), ceilDiv_sub positive room]
    congr 1 <;> omega
  · rw [if_neg enough, if_neg (by omega)]
    congr 1 <;> omega

end Outcome

/-- The end of a task from a look at the builder on. -/
structure Settles {α : Type} (gain left : Nat) (t : Task) (b : Builder α)
    (done : Task × Builder α) : Prop where
  phase : done.1.cycle.phase =
    .finished (settled gain left b.missing t.cycle.inserted t.cycle.attempts)
  missing : done.2.missing = b.missing - gain * left

section Task

variable [Scalar α] {timer : Timer} {config : Config.Backfill} {source : Source α} {t : Task}
  {b : Builder α}

/-- A look that ends the cycle ends the task. -/
theorem settles_of_finish {gain left : Nat}
    (ends : t.cycle.consult config.maxFetchLimit.toNat b =
      t.cycle.finish (settled gain left b.missing t.cycle.inserted t.cycle.attempts))
    (still : b.missing = b.missing - gain * left) (waits : Nat) :
    Settles gain left t b
      (Task.advance timer config source none waits (t.consult timer config source b) b) := by
  have ended : (t.consult timer config source b).cycle.phase =
      .finished (settled gain left b.missing t.cycle.inserted t.cycle.attempts) := by
    rw [cycle_consult, ends]
    rfl
  cases waits with
  | zero => exact ⟨ended, still⟩
  | succ waits => simpa [Task.advance, Task.isFinished, ended] using ⟨ended, still⟩

theorem advance_of_fetching {upTo : Int} {limit : Nat}
    (fetching : t.cycle.phase = .fetching upTo limit) {bars : List (Bar α)}
    (answered : source.answer (t.cycle.attempts - 1) upTo limit = some bars) (waits : Nat) :
    Task.advance timer config source none (waits + 1) t b =
      Task.advance timer config source none waits
        ({ t with cycle := (t.cycle.receive (some bars) b).1 }.consult timer config source
          (t.cycle.receive (some bars) b).2) (t.cycle.receive (some bars) b).2 := by
  simp [Task.advance, Task.isFinished, Task.wake, fetching, answered]

variable {gain left waits : Nat} (size : config.maxFetchLimit.toNat = gain + 1)
  (serves : source.Serves history) (sorted : history.Pairwise (·.timestamp < ·.timestamp))
  (consistent : ∀ bar ∈ history, bar.isConsistent = true)
include size serves sorted consistent

/-- With room and an attempt left, a look leads to a page and then to the next look. -/
theorem advance_page (supplied : Supplied history b) (room : 0 < b.missing)
    (unspent : t.cycle.attempts < t.cycle.budget) (waits : Nat) :
    ∃ (next : Task) (after : Builder α),
      Task.advance timer config source none (waits + 1) (t.consult timer config source b) b =
          Task.advance timer config source none waits (next.consult timer config source after) after ∧
        next.cycle = { t.cycle with
          attempts := t.cycle.attempts + 1
          inserted := t.cycle.inserted + min gain b.missing
          phase := .reading } ∧
        Supplied history after ∧ after.missing = b.missing - gain := by
  obtain ⟨anchor, -, found, -⟩ := supplied.anchored
  have looked : (t.consult timer config source b).cycle = { t.cycle with
      attempts := t.cycle.attempts + 1
      phase := .fetching anchor.timestamp (min gain b.missing + 1) } := by
    rw [cycle_consult, size, consult_of_room found room unspent, Nat.add_min_add_right]
  obtain ⟨count, supplied, left⟩ := supplied.prepend sorted consistent found gain
  have ordered := pairwise_newest sorted anchor.timestamp (min gain b.missing + 1)
  have received := receive_in_order (ordered.imp Int.le_of_lt) (t.consult timer config source b).cycle b
  refine ⟨_, _, advance_of_fetching (congrArg Cycle.phase looked) (serves _ _ _) waits, ?_⟩
  rw [received, count, looked]
  exact ⟨rfl, supplied, left⟩

/-- From each look on, the pages follow one another until nothing is missing or no attempt is
left. -/
theorem advance_consult (enough : left ≤ waits) (supplied : Supplied history b)
    (budget : t.cycle.budget = t.cycle.attempts + left) :
    Settles gain left t b
      (Task.advance timer config source none waits (t.consult timer config source b) b) := by
  induction left generalizing t b waits with
  | zero =>
    obtain ⟨anchor, -, found, -⟩ := supplied.anchored
    apply settles_of_finish
    · rcases Nat.eq_zero_or_pos b.missing with full | room
      · simp [Cycle.consult, found, full, settled_full]
      · simp [Cycle.consult, found, room.ne', budget, settled_spent, room]
    · rfl
  | succ left ih =>
    rcases Nat.eq_zero_or_pos b.missing with full | room
    · obtain ⟨anchor, -, found, -⟩ := supplied.anchored
      apply settles_of_finish
      · simp [Cycle.consult, found, full, settled_full]
      · omega
    · obtain ⟨waits, rfl⟩ := Nat.exists_eq_add_of_le' (Nat.zero_lt_of_lt enough)
      have unspent : t.cycle.attempts < t.cycle.budget := by omega
      obtain ⟨next, after, goesOn, cycle, supplied, missing⟩ :=
        advance_page size serves sorted consistent supplied room unspent waits
      have fewer : next.cycle.budget = next.cycle.attempts + left := by
        simp only [cycle]
        omega
      have rest := ih (Nat.le_of_succ_le_succ enough) supplied fewer
      rw [goesOn]
      constructor
      · rw [rest.phase, missing, cycle, settled_succ _ _ _ _ room]
      · rw [rest.missing, missing, Nat.mul_succ]
        omega

theorem fill_settles (supplied : Supplied history b) :
    Settles gain (attemptBudget b.capacity) (.start b.capacity 0) b (fill config source b timer) :=
  advance_consult (t := .start b.capacity 0) size serves sorted consistent
    (Nat.le_mul_of_pos_left _ Nat.two_pos) supplied (Nat.zero_add _).symm

end Task

section Fill

variable [Scalar α] (timer : Timer) {source : Source α} {b : Builder α}
  (serves : source.Serves history) (sorted : history.Pairwise (·.timestamp < ·.timestamp))
  (consistent : ∀ bar ∈ history, bar.isConsistent = true) (reached : b.Reachable)
include serves sorted consistent reached

/-- The number of bars that went in says which ones they are. -/
theorem bars_of_fill (config : Config.Backfill) {oldest : Int} (found : b.oldest? = some oldest)
    {k attempts : Nat} (fits : k ≤ b.missing)
    (ended : (fill config source b timer).1.cycle.phase = .finished (.complete k attempts) ∨
      (fill config source b timer).1.cycle.phase = .finished (.exhausted k attempts)) :
    (fill config source b timer).2.bars = (earlier history oldest).rtake k ++ b.bars ∧
      (fill config source b timer).2.bars.length = b.bars.length + k := by
  have faithful : ∀ call upTo limit, Faithful history upTo limit (source.answer call upTo limit) :=
    fun call upTo limit => .inr (serves call upTo limit)
  obtain ⟨events, noTrades, run⟩ := Run.fill faithful timer config b
  have kept := run.kept reached.shows
  have contiguous := run.contiguous sorted consistent reached.shows found
  have counted := kept.counted.symm.trans (contiguous.reported k attempts ended)
  have newest := eq_rtake_of_suffix contiguous.part
  rw [counted] at newest
  have live : feedAll b.threshold b.bars (trades events) = b.bars := by rw [noTrades]; rfl
  have within : b.bars.length ≤ b.capacity := reached.length_le
  have length : (inserted events ++ b.bars).length = b.bars.length + k := by
    rw [List.length_append, counted, Nat.add_comm]
  have bars : (fill config source b timer).2.bars = inserted events ++ b.bars := by
    rw [kept.shown.bars_eq, kept.capacity, live, rtake_of_length_le]
    have room := reached.shows.missing_eq
    omega
  exact ⟨newest ▸ bars, bars ▸ length⟩

theorem phase_of_fill {anchor : Bar α} (member : anchor ∈ history)
    (found : b.oldest? = some anchor.timestamp)
    (enough : b.capacity ≤ (earlier history anchor.timestamp).length) :
    (fill {} source b timer).1.cycle.phase =
      .finished (settled 999 (attemptBudget b.capacity) b.missing 0 0) := by
  have missing_eq := reached.shows.missing_eq
  have supplied : Supplied history b := ⟨reached.shows, anchor, member, found, by omega⟩
  exact (fill_settles rfl serves sorted consistent supplied).phase

/-- With the default settings the series gets full exactly if 999 bars for each attempt are as
many as are missing; otherwise all attempts are used up, each of them for 999 bars. -/
theorem fill_of_served {anchor : Bar α} (member : anchor ∈ history)
    (found : b.oldest? = some anchor.timestamp)
    (enough : b.capacity ≤ (history.filter (·.timestamp < anchor.timestamp)).length) :
    let older := history.filter (·.timestamp < anchor.timestamp)
    let most := 999 * (b.capacity / 1000 + 1)
    let done := fill {} source b timer
    (b.missing ≤ most →
      done.1.cycle.phase = .finished (.complete b.missing (b.missing ⌈/⌉ 999)) ∧
      done.2.bars = older.rtake b.missing ++ b.bars ∧ done.2.bars.length = b.capacity) ∧
    (most < b.missing →
      done.1.cycle.phase = .finished (.exhausted most (b.capacity / 1000 + 1)) ∧
      done.2.bars = older.rtake most ++ b.bars ∧ done.2.bars.length < b.capacity) ∧
    (b.capacity / 1000 + b.capacity % 1000 ≤ 1000 → b.missing ≤ most) := by
  intro older most done
  have phase := phase_of_fill timer serves sorted consistent reached member found enough
  have missing_eq := reached.shows.missing_eq
  refine ⟨?_, ?_, ?_⟩
  · intro (few : b.missing ≤ 999 * attemptBudget b.capacity)
    rw [settled, if_pos few, Nat.zero_add, Nat.zero_add] at phase
    obtain ⟨bars, length⟩ := bars_of_fill timer serves sorted consistent reached {} found le_rfl
      (.inl phase)
    have within : b.bars.length ≤ b.capacity := reached.length_le
    exact ⟨phase, bars, length.trans (by omega)⟩
  · intro (many : 999 * attemptBudget b.capacity < b.missing)
    rw [settled, if_neg many.not_ge, Nat.zero_add, Nat.zero_add] at phase
    obtain ⟨bars, length⟩ := bars_of_fill timer serves sorted consistent reached {} found many.le
      (.inr phase)
    exact ⟨phase, bars, length.trans_lt (by omega)⟩
  · intro small
    have anchored : b.bars ≠ [] := by
      intro empty
      have first := oldest?_eq (reached.shows.holds_of_length_le reached.length_le)
      rw [found, empty] at first
      contradiction
    have positive := List.length_pos_of_ne_nil anchored
    omega

end Fill

theorem fill_of_served_four :
    let trade (i : Int) : Trade Float := ⟨i, 1, 1, .buy, "BTC-USDT"⟩
    let history := [5, 6, 7, 8, 9, 10].map fun i => Bar.ofTrade (trade i)
    let source := Source.ofHistory 0 0 history
    let b : Builder Float := Builder.addTrades ⟨.empty 4, 1⟩ [trade 10]
    source.Serves history ∧ history.Pairwise (·.timestamp < ·.timestamp) ∧
      (∀ bar ∈ history, bar.isConsistent = true) ∧ b.Reachable ∧
      Bar.ofTrade (trade 10) ∈ history ∧ b.oldest? = some (Bar.ofTrade (trade 10)).timestamp ∧
      b.capacity ≤ (history.filter (·.timestamp < 10)).length ∧
      (fill {} source b).1.cycle.phase = .finished (.complete 3 1) ∧
      (fill {} source b).2.bars.map (·.timestamp) = [7, 8, 9, 10] := by
  intro trade history source b
  have serves : source.Serves history := Source.serves_ofHistory 0 history
  have sorted : history.Pairwise (·.timestamp < ·.timestamp) := by decide
  have consistent : ∀ bar ∈ history, bar.isConsistent = true := by decide
  have reached : b.Reachable := .addTrade (trade 10) (.new (new_eq (by decide) (by decide) rfl))
  have member : Bar.ofTrade (trade 10) ∈ history := List.mem_map_of_mem (by decide)
  have enough : b.capacity ≤ (history.filter (·.timestamp < 10)).length := by decide
  obtain ⟨phase, bars, -⟩ :=
    (fill_of_served .exact serves sorted consistent reached member rfl enough).1 (by decide)
  refine ⟨serves, sorted, consistent, reached, member, rfl, enough, phase.trans (by decide), ?_⟩
  rw [bars]
  decide

/-- One bar of a series of 2999 stays missing: three pages bring 2997 of the 2998 bars that
are missing, all of which the source has. -/
theorem fill_leaves_one_missing :
    let trade (i : Int) : Trade Float := ⟨i, 1, 1, .buy, "BTC-USDT"⟩
    let history := (List.range 3000).map fun i : Nat => Bar.ofTrade (trade i)
    let source := Source.ofHistory 0 0 history
    let b : Builder Float := Builder.addTrades ⟨.empty 2999, 1⟩ [trade 2999]
    source.Serves history ∧ history.Pairwise (·.timestamp < ·.timestamp) ∧
      (∀ bar ∈ history, bar.isConsistent = true) ∧ b.Reachable ∧
      b.capacity = 2999 ∧ b.bars.length = 1 ∧
      Bar.ofTrade (trade 2999) ∈ history ∧ b.oldest? = some 2999 ∧
      (history.filter (·.timestamp < 2999)).length = b.capacity ∧
      (fill {} source b).1.cycle.phase = .finished (.exhausted 2997 3) ∧
      (fill {} source b).2.bars.length = 2998 := by
  intro trade history source b
  have serves : source.Serves history := Source.serves_ofHistory 0 history
  have reached : b.Reachable := .addTrade (trade 2999) (.new (new_eq (by decide) (by decide) rfl))
  have capacity : b.capacity = 2999 := (capacity_addTrade _ _).trans (Ring.capacity_empty 2999)
  have shown : b.Shows [Bar.ofTrade (trade 2999)] :=
    (shows_empty (by decide) 1).addTrade (trade 2999)
  have missing : b.missing = 2998 := by rw [shown.missing_eq, capacity]; rfl
  have found : b.oldest? = some 2999 := shown.oldest?_of_room (missing ▸ by decide)
  have sorted : history.Pairwise (·.timestamp < ·.timestamp) :=
    List.pairwise_map.mpr (List.pairwise_lt_range.imp Int.ofNat_lt.mpr)
  have consistent : ∀ bar ∈ history, bar.isConsistent = true := by
    intro bar member
    obtain ⟨i, -, rfl⟩ := List.mem_map.mp member
    have atZero : (Bar.ofTrade (trade 0)).isConsistent = true := by decide
    exact atZero
  have split : history = (List.range 2999).map (fun i : Nat => Bar.ofTrade (trade i)) ++
      [Bar.ofTrade (trade 2999)] := by
    rw [show history = (List.range (2999 + 1)).map _ from rfl, List.range_succ, List.map_append]
    rfl
  have member : Bar.ofTrade (trade 2999) ∈ history := split ▸ List.mem_concat_self
  have older : (history.filter (·.timestamp < 2999)).length = b.capacity := by
    have cut : earlier history 2999 = _ := split ▸ earlier_append_cons (split ▸ sorted)
    rw [earlier] at cut
    rw [cut, List.length_map, List.length_range, capacity]
  have phase : (fill {} source b).1.cycle.phase = .finished (.exhausted 2997 3) := by
    rw [phase_of_fill .exact serves sorted consistent reached member found older.ge, capacity, missing]
    decide
  have one : b.bars.length = 1 := by
    rw [shown.bars_eq, capacity, rtake_of_length_le (by decide)]
    rfl
  obtain ⟨-, length⟩ := bars_of_fill .exact serves sorted consistent reached {} found
    (missing ▸ by decide) (.inr phase)
  rw [one] at length
  exact ⟨serves, sorted, consistent, reached, capacity, one, member, found, older, phase, length⟩

end TradeBars.Backfill
