import TradeBars.Proofs.Backfill.Sharing

/-! What a cycle asks its source for, and how often. Each look that leads to a fetch spends one
attempt, each failed fetch is followed by one pause, and where a fetch starts is where the bars
began at that moment. All of it holds of every run, whatever the answers and the trades. -/
namespace TradeBars.Backfill
open Builder Newest

variable {α : Type}

inductive Kind where
  | trade
  | look
  | answer
  | failure
  | resume
  deriving DecidableEq

@[simp] def Event.kind : Event α → Kind
  | .trade _ => .trade
  | .look _ => .look
  | .answer _ _ => .answer
  | .failure => .failure
  | .resume => .resume

/-- How many of the events are of one kind. -/
def count (kind : Kind) (events : List (Event α)) : Nat := (events.map Event.kind).count kind

@[simp] def Event.call? : Event α → Option (Int × Nat)
  | .look call => call
  | _ => none

/-- The timestamps and limits of the fetches. -/
def calls (events : List (Event α)) : List (Int × Nat) := events.filterMap Event.call?

@[simp] def Phase.outcome? : Phase → Option Outcome
  | .finished outcome => some outcome
  | _ => none

section Events

@[simp] theorem count_nil (kind : Kind) : count kind ([] : List (Event α)) = 0 := rfl

@[simp] theorem count_cons (kind : Kind) (event : Event α) (events : List (Event α)) :
    count kind (event :: events) = (if event.kind = kind then 1 else 0) + count kind events := by
  simp only [count, List.map_cons, List.count_cons, beq_iff_eq, Nat.add_comm]

@[simp] theorem count_append (kind : Kind) (events more : List (Event α)) :
    count kind (events ++ more) = count kind events + count kind more := by
  simp only [count, List.map_append, List.count_append]

@[simp] theorem calls_nil : calls ([] : List (Event α)) = [] := rfl

@[simp] theorem calls_cons (event : Event α) (events : List (Event α)) :
    calls (event :: events) = event.call?.toList ++ calls events := by
  unfold calls
  cases found : event.call? with
  | none => exact List.filterMap_cons_none found
  | some call => exact List.filterMap_cons_some found

@[simp] theorem calls_append (events more : List (Event α)) :
    calls (events ++ more) = calls events ++ calls more := List.filterMap_append

@[simp] theorem trades_append (events more : List (Event α)) :
    trades (events ++ more) = trades events ++ trades more := List.filterMap_append

theorem count_trade (events : List (Event α)) : count .trade events = (trades events).length := by
  induction events using List.reverseRecOn with
  | nil => rfl
  | append_singleton events event ih =>
    rw [count_append, ih, trades_concat, List.length_append]
    cases event <;> rfl

theorem exists_of_mem_calls {events : List (Event α)} {call : Int × Nat}
    (member : call ∈ calls events) :
    ∃ before after, events = before ++ .look (some call) :: after := by
  obtain ⟨event, inside, isCall⟩ := List.mem_filterMap.mp member
  cases event with
  | look found =>
    obtain rfl : found = some call := isCall
    exact List.append_of_mem inside
  | trade | answer | failure | resume => contradiction

theorem count_total (events : List (Event α)) :
    count .trade events + count .look events + count .answer events + count .failure events +
      count .resume events = events.length := by
  induction events with
  | nil => rfl
  | cons event events ih =>
    simp only [count_cons, List.length_cons, ← ih]
    cases event <;> simp only [Event.kind, reduceCtorEq, if_true, if_false] <;> omega

end Events

variable [Scalar α] {answers : Int → Nat → Option (List (Bar α)) → Prop} {maxFetchLimit : Nat}
  {start : Builder α} {base : List (Bar α)} {events before after : List (Event α)}
  {event : Event α} {s s' : Shared α}

section Moments

theorem Run.exists_step (run : Run answers maxFetchLimit start (events ++ [event]) s) :
    ∃ moment, Run answers maxFetchLimit start events moment ∧
      Step answers maxFetchLimit moment event s := by
  generalize whole : events ++ [event] = all at run
  cases run with
  | start => simp at whole
  | next run step =>
    obtain ⟨rfl, last⟩ := List.append_inj' whole rfl
    cases last
    exact ⟨_, run, step⟩

/-- A run comes through the moments before and after each of its events. -/
theorem Run.moments (run : Run answers maxFetchLimit start (before ++ event :: after) s) :
    ∃ moment moment', Run answers maxFetchLimit start before moment ∧
      Step answers maxFetchLimit moment event moment' := by
  induction after using List.reverseRecOn generalizing s with
  | nil =>
    obtain ⟨moment, run, step⟩ := run.exists_step
    exact ⟨moment, s, run, step⟩
  | append_singleton after later ih =>
    rw [← List.cons_append, ← List.append_assoc] at run
    obtain ⟨moment, run, -⟩ := run.exists_step
    exact ih run

theorem Step.called {upTo : Int} {limit : Nat}
    (step : Step answers maxFetchLimit s (.look (some (upTo, limit))) s') :
    s.builder.oldest? = some upTo ∧ 0 < s.builder.missing ∧
      limit = min maxFetchLimit (s.builder.missing + 1) ∧ s'.builder = s.builder ∧
      s'.cycle.phase = .fetching upTo limit := by
  generalize called : Event.look (some (upTo, limit)) = event at step
  cases step with
  | look =>
    rw [Event.look.injEq] at called
    obtain ⟨-, looked⟩ | ⟨oldest, found, ⟨-, looked⟩ | ⟨-, -, looked⟩ | ⟨room, -, looked⟩⟩ :=
      consult_cases s.cycle maxFetchLimit s.builder
    all_goals rw [looked] at called
    · contradiction
    · contradiction
    · contradiction
    · cases called
      exact ⟨found, room, rfl, rfl, congrArg Cycle.phase looked⟩
  | trade | answer | failure | resume => contradiction

end Moments

section Counts

/-- What the events of a run come to in the phases of its cycle. -/
structure Counted (events : List (Event α)) (c : Cycle) : Prop where
  attempts : c.attempts = (calls events).length
  within : c.attempts ≤ c.budget
  looks : count .look events = c.attempts + if c.phase.outcome?.isSome then 1 else 0
  replies : count .answer events + count .failure events +
    (if c.phase.call?.isSome then 1 else 0) = c.attempts
  pauses : count .resume events + (if c.phase = .pausing then 1 else 0) = count .failure events

omit [Scalar α] in
theorem Counted.initial (capacity : Nat) : Counted ([] : List (Event α)) (.start capacity) :=
  ⟨rfl, Nat.zero_le _, rfl, rfl, rfl⟩

theorem Counted.step (counted : Counted events s.cycle)
    (step : Step answers maxFetchLimit s event s') : Counted (events ++ [event]) s'.cycle := by
  obtain ⟨attempts, within, looks, replies, pauses⟩ := counted
  cases step with
  | trade t => constructor <;> simpa
  | look reading =>
    simp [reading] at looks replies pauses
    obtain ⟨-, looked⟩ | ⟨_, -, ⟨-, looked⟩ | ⟨-, -, looked⟩ | ⟨-, unspent, looked⟩⟩ :=
      consult_cases s.cycle maxFetchLimit s.builder
    all_goals
      rw [looked]
      constructor <;> simp [Cycle.finish] <;> omega
  | answer fetching _ received =>
    cases received
    simp [fetching] at looks replies pauses
    constructor <;> simp <;> omega
  | failure fetching =>
    simp [fetching] at looks replies pauses
    constructor <;> simp [Cycle.receive] <;> omega
  | resume pausing =>
    simp [pausing] at looks replies pauses
    constructor <;> simp [Cycle.resume] <;> omega

theorem Run.counted (run : Run answers maxFetchLimit start events s) : Counted events s.cycle := by
  induction run with
  | start => exact .initial start.capacity
  | next _ step counted => exact counted.step step

/-- Besides the trades a run has few steps: for each attempt a look, a reply and a pause, and at
last one more look. -/
theorem Run.length_le (run : Run answers maxFetchLimit start events s) :
    events.length ≤ (trades events).length + 3 * s.cycle.budget + 1 := by
  obtain ⟨-, within, looks, replies, pauses⟩ := run.counted
  have total := count_total events
  rw [count_trade] at total
  have last : (if s.cycle.phase.outcome?.isSome then 1 else 0) ≤ 1 := by
    split <;> omega
  omega

theorem Run.budget_eq (run : Run answers maxFetchLimit start events s) :
    s.cycle.budget = attemptBudget start.capacity := by
  induction run with
  | start => rfl
  | @next events s s' event _ step ih =>
    rw [← ih]
    cases step with
    | trade | failure | resume => rfl
    | answer _ _ received => cases received; rfl
    | look =>
      obtain ⟨-, looked⟩ | ⟨_, -, ⟨-, looked⟩ | ⟨-, -, looked⟩ | ⟨-, -, looked⟩⟩ :=
        consult_cases s.cycle maxFetchLimit s.builder
      all_goals simp only [looked, Cycle.finish]

end Counts

section Times

/-- When the first of some bars began. -/
def firstTime (bars : List (Bar α)) : Option Int := bars.head?.map (·.timestamp)

theorem firstTime_feed {older live : List (Bar α)} {time : Int} (threshold : UInt32)
    (found : firstTime (older ++ live) = some time) (t : Trade α) :
    firstTime (older ++ feed threshold live t) = some time := by
  cases older with
  | nil => exact LiveBars.head?_feed threshold found t
  | cons => exact found

omit [Scalar α] in
theorem oldest?_eq_firstTime {b : Builder α} {bars : List (Bar α)} (shown : b.Shows bars) :
    b.oldest? = firstTime b.bars := by
  rw [shown.bars_eq]
  exact oldest?_eq shown

/-- The first of all bars of a run, of which the builder has the newest, begins earlier just when
something goes in before it. -/
theorem Run.firstTime_eq (run : Run answers maxFetchLimit start (before ++ after) s)
    (shown : start.Shows base) {time : Int}
    (found : firstTime (inserted before ++ feedAll start.threshold base (trades before)) =
      some time) :
    ∃ time', firstTime (inserted (before ++ after) ++
        feedAll start.threshold base (trades (before ++ after))) = some time' ∧
      time' ≤ time ∧ (time' < time ↔ inserted after ≠ []) := by
  induction after using List.reverseRecOn generalizing s with
  | nil => exact ⟨time, by rwa [List.append_nil], le_rfl, by simp [inserted]⟩
  | append_singleton after event ih =>
    rw [← List.append_assoc] at run ⊢
    obtain ⟨moment, run, step⟩ := run.exists_step
    obtain ⟨time', first, le, lt⟩ := ih run
    have kept := run.kept shown
    rw [trades_concat, inserted_concat, inserted_concat]
    by_cases noneAdded : event.added = []
    · rw [noneAdded, List.nil_append, List.nil_append]
      refine ⟨time', ?_, le, lt⟩
      cases event with
      | trade t =>
        rw [feedAll, List.foldl_append]
        exact firstTime_feed start.threshold first t
      | look | answer | failure | resume => simpa [Event.trade?] using first
    · cases event with
      | answer bars added =>
        obtain ⟨rfl, -⟩ := step.answered kept.shown
        have room := missing_pos_of_added _ noneAdded
        obtain ⟨bar, rest, new⟩ := List.exists_cons_of_ne_nil noneAdded
        have member : bar ∈ Event.added (.answer bars _) := new ▸ List.mem_cons_self
        obtain ⟨-, -, oldest, isOldest, earlier⟩ := mem_added member
        rw [kept.shown.oldest?_of_room room] at isOldest
        obtain rfl : time' = oldest := Option.some.inj (first.symm.trans isOldest)
        rw [new]
        exact ⟨bar.timestamp, rfl, by omega, iff_of_true (by omega) (by simp)⟩
      | trade | look | failure | resume => contradiction

end Times

section Calls

/-- A fetch asks for what was missing at one moment, and one bar more, up to the oldest bar of
that moment. -/
theorem Run.called (run : Run answers maxFetchLimit start events s) (shown : start.Shows base)
    {upTo : Int} {limit : Nat} (split : events = before ++ .look (some (upTo, limit)) :: after) :
    ∃ moment, Run answers maxFetchLimit start before moment ∧
      moment.builder.bars.length < start.capacity ∧ firstTime moment.builder.bars = some upTo ∧
      limit = min maxFetchLimit (start.capacity - moment.builder.bars.length + 1) := by
  subst split
  obtain ⟨moment, _, run, step⟩ := run.moments
  obtain ⟨found, room, limit_eq, -, -⟩ := step.called
  have kept := run.kept shown
  have missing_eq := kept.shown.bars.missing_eq
  rw [kept.capacity] at missing_eq
  refine ⟨moment, run, by omega, ?_, missing_eq ▸ limit_eq⟩
  rw [← oldest?_eq_firstTime kept.shown, found]

/-- Of two fetches the later one starts earlier in time just when something went in between. -/
theorem Run.called_again (run : Run answers maxFetchLimit start events s)
    (shown : start.Shows base) {between : List (Event α)} {upTo upTo' : Int} {limit limit' : Nat}
    (split : events = before ++ .look (some (upTo, limit)) ::
      (between ++ .look (some (upTo', limit')) :: after)) :
    upTo' ≤ upTo ∧ (upTo' < upTo ↔ inserted between ≠ []) := by
  subst split
  obtain ⟨moment, _, early, called⟩ := run.moments
  obtain ⟨found, room, -⟩ := called.called
  rw [(early.kept shown).shown.oldest?_of_room room] at found
  rw [← List.cons_append, ← List.append_assoc] at run
  obtain ⟨moment', _, late, called'⟩ := run.moments
  obtain ⟨found', room', -⟩ := called'.called
  rw [(late.kept shown).shown.oldest?_of_room room'] at found'
  obtain ⟨time, first, le, lt⟩ := late.firstTime_eq shown found
  obtain rfl : time = upTo' := Option.some.inj (first.symm.trans found')
  exact ⟨le, lt⟩

/-- What the series takes from an answer stands in front of the bars it had. -/
theorem Step.pushed {bars added all : List (Bar α)}
    (step : Step answers maxFetchLimit s (.answer bars added) s') (shown : s.builder.Shows all) :
    s'.builder.bars = added ++ s.builder.bars := by
  obtain ⟨rfl, builder_eq, -⟩ := step.answered shown
  rw [builder_eq, shown.bars_prepend]

theorem Run.pushed (run : Run answers maxFetchLimit start events s) (shown : start.Shows base)
    {bars added : List (Bar α)} (split : events = before ++ .answer bars added :: after) :
    ∃ moment moment', Run answers maxFetchLimit start before moment ∧
      Run answers maxFetchLimit start (before ++ [.answer bars added]) moment' ∧
      moment'.builder.bars = added ++ moment.builder.bars := by
  subst split
  obtain ⟨moment, moment', early, step⟩ := run.moments
  exact ⟨moment, moment', early, early.next step, step.pushed (early.kept shown).shown⟩

end Calls

section End

/-- What an outcome says of the series at the last look, which came after the events `before`, and
of all events. -/
def Outcome.Tells (start b : Builder α) (before events : List (Event α)) : Outcome → Prop
  | .complete k attempts =>
    b.bars.length = start.capacity ∧ k = (inserted events).length ∧
      attempts = (calls events).length
  | .exhausted k attempts =>
    b.bars.length < start.capacity ∧ k = (inserted events).length ∧
      attempts = (calls events).length ∧ attempts = attemptBudget start.capacity
  | .nothingToAnchor => start.bars = [] ∧ before = []

omit [Scalar α] in
theorem consult_finished {c : Cycle} {b : Builder α} {outcome : Outcome}
    (ended : (c.consult maxFetchLimit b).phase = .finished outcome) :
    c.consult maxFetchLimit b = c.finish outcome ∧
      (outcome = .nothingToAnchor ∧ b.oldest? = none ∨
        outcome = .complete c.inserted c.attempts ∧ b.missing = 0 ∨
        outcome = .exhausted c.inserted c.attempts ∧ 0 < b.missing ∧ c.budget ≤ c.attempts) := by
  obtain ⟨noOldest, looked⟩ | ⟨_, -, ⟨full, looked⟩ | ⟨room, spent, looked⟩ | ⟨-, -, looked⟩⟩ :=
    consult_cases c maxFetchLimit b
  all_goals
    rw [looked] at ended
    cases ended
  · exact ⟨looked, .inl ⟨rfl, noOldest⟩⟩
  · exact ⟨looked, .inr (.inl ⟨rfl, full⟩)⟩
  · exact ⟨looked, .inr (.inr ⟨rfl, room, spent⟩)⟩

theorem Run.all_of_empty (run : Run answers maxFetchLimit start events s)
    (shown : start.Shows base) (empty : s.builder.oldest? = none) :
    inserted events ++ feedAll start.threshold base (trades events) = [] := by
  have kept := run.kept shown
  rw [oldest?_eq kept.shown, Option.map_eq_none_iff, List.head?_eq_none_iff] at empty
  have length := length_rtake (inserted events ++ feedAll start.threshold base (trades events))
    s.builder.capacity
  rw [empty, List.length_nil] at length
  have positive := kept.shown.positive
  apply List.eq_nil_of_length_eq_zero
  omega

/-- A cycle that finds no bar has done nothing before: a bar that was there would have stayed. -/
theorem Run.nothing_of_empty (run : Run answers maxFetchLimit start events s)
    (shown : start.Shows base) (reading : s.cycle.phase = .reading)
    (empty : s.builder.oldest? = none) : start.bars = [] ∧ events = [] := by
  have allEmpty := run.all_of_empty shown empty
  have noLive := (List.append_eq_nil_iff.mp allEmpty).2
  have noTrades : trades events = [] := by
    rcases List.eq_nil_or_concat' (trades events) with noTrades | ⟨ts, t, lastTrade⟩
    · exact noTrades
    · rw [lastTrade, feedAll, List.foldl_concat] at noLive
      exact absurd noLive (LiveBars.feed_ne_nil _ _ _)
  have noCalls : calls events = [] := by
    apply List.eq_nil_iff_forall_not_mem.mpr
    rintro ⟨upTo, limit⟩ member
    obtain ⟨before, after, rfl⟩ := exists_of_mem_calls member
    obtain ⟨moment, _, early, step⟩ := run.moments
    obtain ⟨found, room, -⟩ := step.called
    rw [(early.kept shown).shown.oldest?_of_room room] at found
    obtain ⟨time, first, -⟩ := run.firstTime_eq shown found
    rw [allEmpty] at first
    contradiction
  constructor
  · rw [noTrades] at noLive
    obtain rfl : base = [] := noLive
    rw [shown.bars_eq, List.rtake_nil]
  · obtain ⟨attempts, -, looks, replies, pauses⟩ := run.counted
    have total := count_total events
    simp only [reading, Phase.outcome?, noCalls, List.length_nil] at attempts looks
    rw [count_trade, noTrades, List.length_nil] at total
    apply List.eq_nil_of_length_eq_zero
    simp only [Option.isSome_none, Bool.false_eq_true, if_false] at looks
    omega

theorem Run.last_look (run : Run answers maxFetchLimit start events s) {outcome : Outcome}
    (finished : s.cycle.phase = .finished outcome) :
    ∃ before moment after, events = before ++ .look none :: after ∧
      (∀ event ∈ after, event.kind = .trade) ∧ Run answers maxFetchLimit start before moment ∧
      moment.cycle.phase = .reading ∧
      moment.cycle.consult maxFetchLimit moment.builder = s.cycle := by
  induction run with
  | start => contradiction
  | @next events s s' event run step ih =>
    cases step with
    | trade t =>
      obtain ⟨before, moment, after, rfl, onlyTrades, early, reading, looked⟩ := ih finished
      refine ⟨before, moment, after ++ [.trade t], ?_, ?_, early, reading, looked⟩
      · rw [List.append_assoc, List.cons_append]
      · simpa [or_imp, forall_and] using onlyTrades
    | look reading =>
      refine ⟨events, s, [], ?_, by simp, run, reading, rfl⟩
      rw [finished]
      rfl
    | answer _ _ received => cases received; contradiction
    | failure | resume => contradiction

/-- A cycle ends with a look, after which there are trades only, and the outcome tells what that
look found. -/
theorem Run.ended (run : Run answers maxFetchLimit start events s) (shown : start.Shows base)
    {outcome : Outcome} (finished : s.cycle.phase = .finished outcome) :
    ∃ before moment after, events = before ++ .look none :: after ∧
      (∀ event ∈ after, event.kind = .trade) ∧ Run answers maxFetchLimit start before moment ∧
      outcome.Tells start moment.builder before events := by
  obtain ⟨before, moment, after, split, onlyTrades, early, reading, looked⟩ :=
    run.last_look finished
  refine ⟨before, moment, after, split, onlyTrades, early, ?_⟩
  have kept := early.kept shown
  have missing_eq := kept.shown.bars.missing_eq
  have fits := kept.shown.length_bars_le
  rw [kept.capacity] at missing_eq fits
  obtain ⟨ends, found⟩ := consult_finished (looked ▸ finished)
  have last : s.cycle = moment.cycle.finish outcome := looked.symm.trans ends
  have inserted_eq : moment.cycle.inserted = (inserted events).length := by
    rw [← (run.kept shown).counted, last]
    rfl
  have attempts_eq : moment.cycle.attempts = (calls events).length := by
    rw [← run.counted.attempts, last]
    rfl
  rcases found with ⟨rfl, empty⟩ | ⟨rfl, full⟩ | ⟨rfl, room, spent⟩
  · exact early.nothing_of_empty shown reading empty
  · exact ⟨by omega, inserted_eq, attempts_eq⟩
  · have within := early.counted.within
    rw [early.budget_eq] at spent within
    exact ⟨by omega, inserted_eq, attempts_eq, by omega⟩

end End

section Progress

/-- As long as the source answers, a cycle that is not at its end can go on. -/
theorem exists_step (answering : ∀ upTo limit, ∃ reply, answers upTo limit reply) (s : Shared α) :
    (∃ outcome, s.cycle.phase = .finished outcome) ∨
      ∃ event s', event.trade? = none ∧ Step answers maxFetchLimit s event s' := by
  cases going : s.cycle.phase with
  | reading => exact .inr ⟨_, _, rfl, .look s going⟩
  | fetching upTo limit =>
    obtain ⟨reply, possible⟩ := answering upTo limit
    cases reply with
    | none => exact .inr ⟨_, _, rfl, .failure s going possible⟩
    | some bars => exact .inr ⟨_, _, rfl, .answer s going possible rfl⟩
  | pausing => exact .inr ⟨_, _, rfl, .resume s going⟩
  | finished outcome => exact .inl ⟨outcome, rfl⟩

end Progress

end TradeBars.Backfill
