import TradeBars.Proofs.Feed.Runs

/-! The books of a live feed. Main statement: whatever a backfill does meanwhile, the bars of the
trades and all counters are those of the readable payloads alone, and one backfill at most starts,
with the first of them. -/
namespace TradeBars.Feed.Session

/-- What the counters come to. -/
def tally (threshold : UInt32) (received accepted : Nat) : Stats where
  received
  accepted
  rejected := received - accepted
  opened := accepted ⌈/⌉ threshold.toNat
  closed := accepted / threshold.toNat

/-- One backfill at most, in terms of the builder and of the cycle, if there is one. Without a
cycle there were trades only, and none if a backfill is asked for. With the first trade its
cycle starts, and all steps from then on are those of this cycle and of later trades. -/
inductive OneBackfill (b : Builder Float)
    (backfill : Option (Backfill.Source Float × Config.Backfill)) :
    List (Backfill.Event Float) → Builder Float → Option Backfill.Cycle → Prop where
  | alone (ts : List (Trade Float)) : (backfill.isSome → ts = []) →
      OneBackfill b backfill (ts.map .trade) (b.addTrades ts) none
  | running {source : Backfill.Source Float} {config : Config.Backfill} {first : Trade Float}
      {steps : List (Backfill.Event Float)} {s : Backfill.Shared Float} :
      backfill = some (source, config) →
      Backfill.Run anyAnswer config.maxFetchLimit.toNat (b.addTrade first).2 steps s →
      OneBackfill b backfill (.trade first :: steps) s.builder (some s.cycle)

/-- The books after some events. -/
structure Accounts (b : Builder Float) (aliases : Aliases)
    (backfill : Option (Backfill.Source Float × Config.Backfill)) (events : List Event)
    (s : Session) : Prop where
  reads : s.feed.aliases = aliases
  configured : s.backfill = backfill
  trades : Backfill.trades (shared aliases events) = readable aliases (payloads events)
  stats : s.feed.stats =
    tally b.threshold (payloads events).length (readable aliases (payloads events)).length
  oneBackfill : OneBackfill b backfill (shared aliases events) s.feed.builder
    (s.task.map (·.cycle))

theorem trades_map_trade (ts : List (Trade Float)) :
    Backfill.trades (ts.map Backfill.Event.trade) = ts := by
  induction ts with
  | nil => rfl
  | cons t ts ih => exact congrArg (t :: ·) ih

theorem inserted_map_trade (ts : List (Trade Float)) :
    Backfill.inserted (ts.map Backfill.Event.trade) = [] := by
  induction ts with
  | nil => rfl
  | cons t ts ih => exact ih

section Books

variable {capacity : Nat} {threshold : UInt32} {b builder : Builder Float} {aliases : Aliases}
  {backfill : Option (Backfill.Source Float × Config.Backfill)} {steps : List (Backfill.Event Float)}
  {cycle : Option Backfill.Cycle} {events : List Event} {s s' : Session}

theorem OneBackfill.threshold_eq (one : OneBackfill b backfill steps builder cycle)
    (made : Builder.new capacity threshold = .ok b) : builder.threshold = b.threshold := by
  cases one with
  | alone ts => exact Builder.threshold_addTrades b ts
  | running _ run => exact (run.kept ((Builder.shows_of_new made).1.addTrade _)).threshold

theorem OneBackfill.capacity_eq (one : OneBackfill b backfill steps builder cycle)
    (made : Builder.new capacity threshold = .ok b) : builder.capacity = b.capacity := by
  cases one with
  | alone ts => exact Builder.capacity_addTrades b ts
  | running _ run =>
    have kept := run.kept ((Builder.shows_of_new made).1.addTrade _)
    exact kept.capacity.trans (Builder.capacity_addTrade b _)

/-- The history is in front of the bars of the trades, and there is none without them. -/
theorem OneBackfill.shows (one : OneBackfill b backfill steps builder cycle)
    (made : Builder.new capacity threshold = .ok b) :
    builder.Shows (Backfill.inserted steps ++ liveBars b.threshold (Backfill.trades steps)) ∧
      (Backfill.trades steps = [] → Backfill.inserted steps = []) := by
  obtain ⟨-, rfl, rfl, someTrades⟩ := Builder.shows_of_new made
  cases one with
  | alone ts =>
    rw [trades_map_trade, inserted_map_trade]
    exact ⟨Builder.shows_liveBars made ts, fun _ => rfl⟩
  | @running _ _ first steps _ _ run =>
    refine ⟨?_, fun noTrades => absurd noTrades (List.cons_ne_nil first (Backfill.trades steps))⟩
    have kept := run.kept (Builder.shows_liveBars made [first])
    have live := LiveBars.liveBars_append someTrades [first] (Backfill.trades steps)
    exact live ▸ kept.shown

theorem tally_rejected {received accepted : Nat} (le : accepted ≤ received) :
    tally threshold (received + 1) accepted =
      { tally threshold received accepted with
        received := received + 1
        rejected := received - accepted + 1 } := by
  simp only [tally, Nat.succ_sub le]

theorem tally_accepted (someTrades : 0 < threshold.toNat) (received accepted : Nat) :
    tally threshold (received + 1) (accepted + 1) =
      { received := received + 1
        accepted := accepted + 1
        rejected := received - accepted
        opened := accepted ⌈/⌉ threshold.toNat + if accepted % threshold.toNat = 0 then 1 else 0
        closed := accepted / threshold.toNat +
          if (accepted + 1) % threshold.toNat = 0 then 1 else 0 } := by
  simp only [tally, Nat.add_sub_add_right, Chunks.ceilDiv_succ someTrades, Nat.succ_div,
    Nat.dvd_iff_mod_eq_zero]

theorem Accounts.initial (b : Builder Float) (aliases : Aliases)
    (backfill : Option (Backfill.Source Float × Config.Backfill)) :
    Accounts b aliases backfill [] (fresh b aliases backfill) where
  reads := rfl
  configured := rfl
  trades := rfl
  stats := by simp [tally, fresh, payloads, readable]
  oneBackfill := .alone [] fun _ => rfl

theorem Accounts.rejected (accounts : Accounts b aliases backfill events s) {v : Json}
    {rejection : Rejection} (unreadable : Payload.trade aliases v = .error rejection) :
    Accounts b aliases backfill (events ++ [.payload v none]) (s.handle v) := by
  obtain rfl := accounts.reads
  have noTrade := readable_concat_of_error (payloads events) unreadable
  have noStep : shared s.feed.aliases (events ++ [.payload v none]) =
      shared s.feed.aliases events := by
    simp [shared, Event.shared?, unreadable, Except.toOption]
  rw [handle_of_unreadable unreadable]
  constructor
  case reads => rfl
  case configured => exact accounts.configured
  case trades =>
    rw [noStep, payloads_concat, noTrade]
    exact accounts.trades
  case stats =>
    rw [payloads_concat, noTrade, List.length_append, List.length_singleton,
      tally_rejected (length_readable_le _ _), accounts.stats]
    rfl
  case oneBackfill =>
    rw [noStep]
    exact accounts.oneBackfill

/-- A backfill that is asked for runs from the first trade on. -/
theorem OneBackfill.started (one : OneBackfill b backfill steps builder cycle) :
    cycle.isSome ↔ backfill.isSome ∧ Backfill.trades steps ≠ [] := by
  cases one with
  | alone ts noTrades =>
    rw [trades_map_trade]
    simpa using noTrades
  | @running _ _ first steps _ asked =>
    rw [asked]
    exact iff_of_true rfl ⟨rfl, List.cons_ne_nil first (Backfill.trades steps)⟩

/-- A trade goes into the builder, and the first one starts the backfill if there is to be one. -/
theorem OneBackfill.trade (one : OneBackfill b backfill steps builder cycle)
    (made : Builder.new capacity threshold = .ok b) (t : Trade Float) :
    OneBackfill b backfill (steps ++ [.trade t]) (builder.addTrade t).2
      (if cycle.isNone && backfill.isSome && (builder.addTrade t).1.opened then
        some (.start (builder.addTrade t).2.capacity)
      else cycle) := by
  cases one with
  | alone ts noTrades =>
    cases backfill with
    | none =>
      have longer : OneBackfill b none ((ts ++ [t]).map .trade) (b.addTrades (ts ++ [t])) none :=
        .alone _ fun asked => Bool.noConfusion asked
      rw [List.map_append, Builder.addTrades, List.foldl_concat] at longer
      exact longer
    | some asked =>
      obtain rfl := noTrades rfl
      have opens : (b.addTrade t).1.opened = true := by
        have update := Builder.update_of_new made [] t
        exact (congrArg Update.opened update).trans (by simp)
      have starts : OneBackfill b (some asked) [.trade t] (b.addTrade t).2
          (some (.start (b.addTrade t).2.capacity)) := .running rfl .start
      simpa [Builder.addTrades, opens] using starts
  | running asked run => exact .running asked (run.next (.trade _ t))

theorem Accounts.accepted (accounts : Accounts b aliases backfill events s)
    (made : Builder.new capacity threshold = .ok b) {v : Json} {t : Trade Float}
    (trade : Payload.trade aliases v = .ok t) :
    Accounts b aliases backfill (events ++ [.payload v (some (s.feed.builder.addTrade t).1)])
      (s.handle v) := by
  obtain rfl := accounts.reads
  obtain ⟨-, -, rfl, someTrades⟩ := Builder.shows_of_new made
  have oneTrade := readable_concat_of_trade (payloads events) trade
  have oneStep (update) : shared s.feed.aliases (events ++ [.payload v update]) =
      shared s.feed.aliases events ++ [.trade t] := by
    simp [shared, Event.shared?, trade, Except.toOption]
  have builder_eq : (s.handle v).feed.builder = (s.feed.builder.addTrade t).2 := by
    simp only [handle, handle_of_trade trade]
  constructor
  case reads => simp only [handle, handle_of_trade trade]
  case configured => exact accounts.configured
  case trades =>
    rw [oneStep, payloads_concat, oneTrade, Backfill.trades_concat, accounts.trades]
    rfl
  case stats =>
    obtain ⟨shown, anchored⟩ := accounts.oneBackfill.shows made
    rw [accounts.trades] at shown anchored
    have same := accounts.oneBackfill.threshold_eq made
    have update := shown.update_of_liveBars same someTrades anchored t
    rw [payloads_concat, oneTrade, List.length_append, List.length_append, List.length_singleton,
      List.length_singleton, tally_accepted someTrades]
    simp only [handle, handle_of_trade trade, accounts.stats, update, decide_eq_true_eq]
    rfl
  case oneBackfill =>
    have traded := accounts.oneBackfill.trade made t
    rwa [oneStep, builder_eq, task_handle trade, accounts.configured, ← Option.isNone_map]

theorem OneBackfill.step {c : Backfill.Cycle} (one : OneBackfill b backfill steps builder (some c))
    {source : Backfill.Source Float} {config : Config.Backfill} {event : Backfill.Event Float}
    {shared : Backfill.Shared Float} (asked : backfill = some (source, config))
    (step : Backfill.Step anyAnswer config.maxFetchLimit.toNat ⟨builder, c⟩ event shared) :
    OneBackfill b backfill (steps ++ [event]) shared.builder (some shared.cycle) := by
  cases one with
  | running asked' run =>
    cases asked.symm.trans asked'
    exact .running asked (run.next step)

theorem Accounts.step (accounts : Accounts b aliases backfill events s)
    (made : Builder.new capacity threshold = .ok b) {event : Event} (step : Step s event s') :
    Accounts b aliases backfill (events ++ [event]) s' := by
  cases step with
  | payload v =>
    cases read : Payload.trade s.feed.aliases v with
    | error rejection =>
      rw [handle_of_error read]
      exact accounts.rejected (accounts.reads ▸ read)
    | ok t =>
      rw [handle_of_trade read]
      exact accounts.accepted made (accounts.reads ▸ read)
  | @backfill _ _ _ event _ asked going noTrade step =>
    have samePayloads : payloads (events ++ [.backfill event]) = payloads events :=
      (payloads_append _ _).trans (List.append_nil _)
    have oneStep : shared aliases (events ++ [.backfill event]) = shared aliases events ++ [event] :=
      shared_append _ _ _
    constructor
    case reads => exact accounts.reads
    case configured => exact accounts.configured
    case trades =>
      rw [samePayloads, oneStep, Backfill.trades_concat, noTrade]
      exact (List.append_nil _).trans accounts.trades
    case stats =>
      rw [samePayloads]
      exact accounts.stats
    case oneBackfill =>
      have one := accounts.oneBackfill
      rw [going] at one
      rw [oneStep]
      exact one.step (accounts.configured ▸ asked) step
  | pass feed configured cycle =>
    have samePayloads : payloads (events ++ [.pass]) = payloads events :=
      (payloads_append _ _).trans (List.append_nil _)
    have sameSteps : shared aliases (events ++ [.pass]) = shared aliases events :=
      (shared_append _ _ _).trans (List.append_nil _)
    constructor
    case reads => exact feed ▸ accounts.reads
    case configured => exact configured.trans accounts.configured
    case trades => rw [samePayloads, sameSteps, accounts.trades]
    case stats => rw [samePayloads, feed, accounts.stats]
    case oneBackfill =>
      rw [sameSteps, feed, cycle]
      exact accounts.oneBackfill

theorem Run.accounts (run : Run (fresh b aliases backfill) events s)
    (made : Builder.new capacity threshold = .ok b) : Accounts b aliases backfill events s := by
  induction run with
  | start => exact .initial b aliases backfill
  | next _ step accounts => exact accounts.step made step

/-- The bars of the trades are there as without a backfill, and history in front of them. -/
theorem Accounts.bars (accounts : Accounts b aliases backfill events s)
    (made : Builder.new capacity threshold = .ok b) :
    let live := (b.addTrades (readable aliases (payloads events))).bars
    s.feed.builder.bars =
      (Backfill.inserted (shared aliases events)).rtake (capacity - live.length) ++ live := by
  intro live
  obtain ⟨shown, -⟩ := accounts.oneBackfill.shows made
  have size := accounts.oneBackfill.capacity_eq made
  obtain ⟨-, rfl, rfl, -⟩ := Builder.shows_of_new made
  have live_eq : live = _ := (Builder.shows_liveBars made _).bars_eq
  rw [Builder.capacity_addTrades] at live_eq
  have left : b.capacity - live.length =
      b.capacity - (liveBars b.threshold (readable aliases (payloads events))).length := by
    rw [live_eq, Newest.length_rtake]
    omega
  rw [shown.bars_eq, size, accounts.trades, Newest.rtake_append, left, live_eq]

end Books

/-- Whatever happens in between, payloads give the bars and counters of the readable ones among
them, in order; rejected ones only count; a backfill changes no counter and no bar of a trade;
and it starts once at most, with the first readable payload. What sessions do in time is all of
this kind. -/
theorem accounting {capacity : Nat} {threshold : UInt32} {b : Builder Float}
    (made : Builder.new capacity threshold = .ok b) (aliases : Aliases) :
    (∀ backfill events s, Run (fresh b aliases backfill) events s →
      let trades := readable aliases (payloads events)
      let live := (b.addTrades trades).bars
      s.feed.builder.bars =
          (Backfill.inserted (shared aliases events)).rtake (capacity - live.length) ++ live ∧
        s.feed.stats.received = (payloads events).length ∧
        s.feed.stats.accepted + s.feed.stats.rejected = s.feed.stats.received ∧
        s.feed.stats.accepted = trades.length ∧
        s.feed.stats.opened = trades.length ⌈/⌉ threshold.toNat ∧
        s.feed.stats.closed = trades.length / threshold.toNat ∧
        Backfill.trades (shared aliases events) = trades ∧
        (s.task.isSome ↔ backfill.isSome ∧ trades ≠ []) ∧
        OneBackfill b backfill (shared aliases events) s.feed.builder (s.task.map (·.cycle))) ∧
      (∀ backfill events s, Run (fresh b aliases backfill) events s →
        ∃ stats, Run (fresh b aliases backfill) (events.filter (!·.isRejected))
          { s with feed := { s.feed with stats } }) ∧
      (∀ backfill backfill' events events' s s', Run (fresh b aliases backfill) events s →
        Run (fresh b aliases backfill') events' s' → payloads events = payloads events' →
        s.feed.stats = s'.feed.stats) ∧
      ∀ timer backfill batches, ∃ events, payloads events = batches.flatMap (·.payloads) ∧
        Run (fresh b aliases backfill) events
          ({ fresh b aliases backfill with timer }.run batches) := by
  refine ⟨?_, ?_, ?_, exists_run_of_batches b aliases⟩
  · intro backfill events s run
    have accounts := run.accounts made
    have bars := accounts.bars made
    obtain ⟨-, -, rfl, -⟩ := Builder.shows_of_new made
    have started := accounts.oneBackfill.started
    rw [accounts.trades, Option.isSome_map] at started
    refine ⟨bars, ?_⟩
    rw [accounts.stats]
    exact ⟨rfl, Nat.add_sub_cancel' (length_readable_le _ _), rfl, rfl, rfl, accounts.trades,
      started, accounts.oneBackfill⟩
  · intro backfill events s run
    exact run.withoutRejected
  · intro backfill backfill' events events' s s' run run' same
    rw [(run.accounts made).stats, (run'.accounts made).stats, same]

/-- Three of five payloads can be read. With and without a backfill they open two bars and close
one; the backfill has started by then. -/
theorem accounting_five :
    let payload (time : Int) : Json :=
      .obj [("T", .num (.int time)), ("p", .num (.int 100)), ("q", .num (.int 1)),
        ("m", .bool true), ("s", .str "BTCUSDT")]
    let other : Json := .obj [("e", .str "kline")]
    let batches : List Batch :=
      [⟨[payload 101000, other, payload 102000], some 10⟩, ⟨[other, payload 103000], none⟩]
    let source := Backfill.Source.ofHistory 5 1 [⟨95, 90, 91, 89, 90, 3, 270, 2, 1, 90⟩]
    let b : Builder Float := ⟨.empty 10, 2⟩
    let alone := (fresh b .binance none).run batches
    let filled := (fresh b .binance (some (source, {}))).run batches
    Builder.new 10 2 = .ok b ∧ alone.feed.stats = ⟨5, 3, 2, 2, 1⟩ ∧
      filled.feed.stats = ⟨5, 3, 2, 2, 1⟩ ∧ filled.task.isSome := by
  intro payload other batches source b alone filled
  have made : Builder.new 10 2 = .ok b := Builder.new_eq (by decide) (by decide) rfl
  obtain ⟨books, -, same, timed⟩ := accounting made .binance
  obtain ⟨events, handled, run⟩ : ∃ events, payloads events = batches.flatMap (·.payloads) ∧
      Run (fresh b .binance (some (source, {}))) events filled := timed .exact _ batches
  obtain ⟨events', handled', run'⟩ : ∃ events, payloads events = batches.flatMap (·.payloads) ∧
      Run (fresh b .binance none) events alone := timed .exact _ batches
  clear_value alone filled
  have three : (readable .binance (payloads events)).length = 3 := by
    rw [handled]
    decide
  obtain ⟨-, received, total, accepted, opened, closed, -, started, -⟩ := books _ _ _ run
  have stats : filled.feed.stats = ⟨5, 3, 2, 2, 1⟩ := by
    rw [handled] at received
    rw [three] at accepted opened closed
    rw [accepted, received] at total
    have rejected : filled.feed.stats.rejected = 2 := Nat.add_left_cancel total
    calc filled.feed.stats
      _ = ⟨filled.feed.stats.received, filled.feed.stats.accepted, filled.feed.stats.rejected,
          filled.feed.stats.opened, filled.feed.stats.closed⟩ := rfl
      _ = ⟨5, 3, 2, 2, 1⟩ := by
        rw [received, accepted, rejected, opened, closed]
        rfl
  refine ⟨made, ?_, stats, ?_⟩
  · exact (same _ _ _ _ _ _ run' run (handled'.trans handled.symm)).trans stats
  · exact started.mpr ⟨rfl, List.ne_nil_of_length_pos (three ▸ Nat.succ_pos 2)⟩

end TradeBars.Feed.Session
