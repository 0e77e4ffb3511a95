import TradeBars.Proofs.Backfill.Task

/-! A backfill task on its clock while trades come in. It is woken at the end of each of its
waits. Main statement: what a cycle may ask for and how it ends, for all sources and all trades;
and that a task gets there after few waits, one of which follows each failure. -/
namespace TradeBars.Backfill
open Builder

variable {α : Type} [Scalar α]

/-- A task that has been woken so many times, with trades at any time in between. -/
inductive Tended (timer : Timer) (config : Config.Backfill) (source : Source α) (start : Builder α)
    (now : Nat) : Nat → List (Trade α) → Task → Builder α → Prop where
  | start : Tended timer config source start now 0 [] (.start start.capacity now) start
  | wake {wakes : Nat} {ts : List (Trade α)} {t : Task} {b : Builder α} :
      Tended timer config source start now wakes ts t b →
      Tended timer config source start now (wakes + 1) ts (t.wake timer config source b).1
        (t.wake timer config source b).2
  | trade {wakes : Nat} {ts : List (Trade α)} {t : Task} {b : Builder α} (next : Trade α) :
      Tended timer config source start now wakes ts t b →
      Tended timer config source start now wakes (ts ++ [next]) t (b.addTrade next).2

/-- What a source may answer in one of its calls. -/
def Source.Gives (source : Source α) (upTo : Int) (limit : Nat)
    (reply : Option (List (Bar α))) : Prop :=
  ∃ call, source.answer call upTo limit = reply

section Tended

variable {timer : Timer} {config : Config.Backfill} {source : Source α} {start b : Builder α}
  {now wakes : Nat} {ts : List (Trade α)} {t t' t'' : Task} {events more : List (Event α)}

omit [Scalar α] in
theorem Waited.trans (first : Waited timer config source events t t')
    (second : Waited timer config source more t' t'') :
    Waited timer config source (events ++ more) t t'' where
  calls := by rw [second.calls, first.calls, calls_append, List.append_assoc]
  due := by
    rw [second.due, first.due, waits_append, List.foldl_append]

theorem wake_of_finished (finished : t.isFinished = true) : t.wake timer config source b = (t, b) := by
  unfold Task.isFinished at finished
  unfold Task.wake
  split at finished
  · next phase => simp only [phase]
  · contradiction

/-- A task is where a run of its cycle is. Unless it has finished, each time that it was woken it
took a look or met with a failure. -/
theorem Tended.run (tended : Tended timer config source start now wakes ts t b) :
    ∃ events, Run source.Gives config.maxFetchLimit.toNat start events ⟨b, t.cycle⟩ ∧
      trades events = ts ∧ Waited timer config source events (.start start.capacity now) t ∧
      (t.isFinished = true ∨ wakes = count .look events + count .failure events) := by
  induction tended with
  | start => exact ⟨[], .start, rfl, ⟨rfl, rfl⟩, .inr rfl⟩
  | @wake wakes ts t b _ ih =>
    obtain ⟨events, run, rfl, waited, rounds⟩ := ih
    have possible (call upTo limit) : source.Gives upTo limit (source.answer call upTo limit) :=
      ⟨call, rfl⟩
    obtain ⟨more, path, woken, round⟩ : ∃ more, Path source.Gives config.maxFetchLimit.toNat
        ⟨b, t.cycle⟩ more ⟨_, _⟩ ∧ Waited timer config source more t _ ∧ _ :=
      Path.wake timer possible t b
    refine ⟨events ++ more, run.along path, ?_, waited.trans woken, ?_⟩
    · rw [trades_append, path.trades_eq, List.append_nil]
    · by_cases finished : t.isFinished = true
      · rw [wake_of_finished finished]
        exact .inl finished
      · rw [if_neg finished] at round
        have once := rounds.resolve_left finished
        simp only [count_append]
        omega
  | @trade wakes ts t b next _ ih =>
    obtain ⟨events, run, rfl, waited, rounds⟩ := ih
    refine ⟨_, run.next (.trade _ next), ?_, ?_, ?_⟩
    · rw [trades_concat]
      rfl
    · exact ⟨by simpa using waited.calls, by simpa [waits_append] using waited.due⟩
    · simpa using rounds

theorem Tended.wake_in_order (tended : Tended timer config source start now wakes ts t b) {upTo : Int}
    {limit : Nat} (fetching : t.cycle.phase = .fetching upTo limit) {bars : List (Bar α)}
    (answered : source.answer (t.cycle.attempts - 1) upTo limit = some bars)
    (sorted : bars.Pairwise (·.timestamp ≤ ·.timestamp)) :
    let cycle := { t.cycle with
      inserted := t.cycle.inserted + (b.prepend bars).1
      phase := .reading }
    Tended timer config source start now (wakes + 1) ts
      ({ t with cycle }.consult timer config source (b.prepend bars).2) (b.prepend bars).2 := by
  simpa only [Task.wake, fetching, answered, receive_in_order sorted] using tended.wake

theorem outcome?_eq_none (going : ¬ t.isFinished = true) : t.cycle.phase.outcome? = none := by
  unfold Task.isFinished at going
  cases phase : t.cycle.phase with
  | finished => simp [phase] at going
  | reading | fetching | pausing => rfl

theorem Tended.isFinished (tended : Tended timer config source start now wakes ts t b)
    (enough : 2 * attemptBudget start.capacity + 1 ≤ wakes) : t.isFinished = true := by
  obtain ⟨events, run, -, -, rounds⟩ := tended.run
  by_contra going
  obtain ⟨-, within, looks, replies, -⟩ := run.counted
  have once := rounds.resolve_left going
  have budget := run.budget_eq
  simp only [outcome?_eq_none going, Option.isSome_none, Bool.false_eq_true, if_false] at looks
  dsimp only at within looks replies budget
  omega

theorem Tended.advance (tended : Tended timer config source start now wakes ts t b) (waits : Nat) :
    ∃ more, Tended timer config source start now (wakes + more) ts
        (Task.advance timer config source none waits t b).1
        (Task.advance timer config source none waits t b).2 ∧
      ((Task.advance timer config source none waits t b).1.isFinished = true ∨ more = waits) := by
  induction waits generalizing wakes t b with
  | zero => exact ⟨0, tended, .inr rfl⟩
  | succ waits ih =>
    by_cases finished : t.isFinished = true
    · rw [Task.advance, if_neg (by simp [finished])]
      exact ⟨0, tended, .inl finished⟩
    · obtain ⟨more, later, done⟩ := ih tended.wake
      rw [Task.advance, if_pos (by simp [finished])]
      refine ⟨more + 1, ?_, done.imp_right (congrArg (· + 1))⟩
      rwa [Nat.add_comm more, ← Nat.add_assoc]

/-- As many waits as a task is allowed are enough for it. -/
theorem Tended.complete (tended : Tended timer config source start now wakes ts t b) :
    (t.complete timer config source b).1.isFinished = true := by
  obtain ⟨more, later, finished | all⟩ := tended.advance t.mostWaits
  · exact finished
  · apply later.isFinished
    obtain ⟨events, run, -⟩ := tended.run
    rw [all, Task.mostWaits, run.budget_eq]
    omega

end Tended

/-- A cycle makes at most as many fetches as its budget has, spends an attempt on each, and counts
what goes in. It asks for what is missing at one moment, up to the oldest bar of that moment; a
later fetch starts earlier in time just when something went in. It ends when it finds the series
full, when the budget is used up, or at its first look if there is no bar. Whatever the timer makes
of it, the cycle asks for the whole pause once after each failure, and for no other wait but those
for the answers. -/
theorem fetches_and_outcomes {start : Builder α} (reached : start.Reachable)
    (config : Config.Backfill) :
    let budget := start.capacity / 1000 + 1
    let most := config.maxFetchLimit.toNat
    (∀ answers events s, Run answers most start events s →
      (calls events).length ≤ budget ∧
      s.cycle.attempts = (calls events).length ∧
      s.cycle.inserted = (inserted events).length ∧
      count .resume events + (if s.cycle.phase = .pausing then 1 else 0) =
        count .failure events ∧
      events.length ≤ (trades events).length + 3 * budget + 1 ∧
      ((∀ upTo limit, ∃ reply, answers upTo limit reply) →
        (∃ outcome, s.cycle.phase = .finished outcome) ∨
          ∃ event s', event.trade? = none ∧ Step answers most s event s') ∧
      (∀ before bars added after, events = before ++ .answer bars added :: after →
        ∃ moment moment', Run answers most start before moment ∧
          Run answers most start (before ++ [.answer bars added]) moment' ∧
          moment'.builder.bars = added ++ moment.builder.bars) ∧
      (∀ before upTo limit after, events = before ++ .look (some (upTo, limit)) :: after →
        ∃ moment, Run answers most start before moment ∧
          moment.builder.bars.length < start.capacity ∧
          moment.builder.bars.head?.map (·.timestamp) = some upTo ∧
          limit = min most (start.capacity - moment.builder.bars.length + 1)) ∧
      (∀ before upTo limit between upTo' limit' after,
        events = before ++ .look (some (upTo, limit)) ::
          (between ++ .look (some (upTo', limit')) :: after) →
        upTo' ≤ upTo ∧ (upTo' < upTo ↔ inserted between ≠ [])) ∧
      ∀ outcome, s.cycle.phase = .finished outcome →
        ∃ before moment after, events = before ++ .look none :: after ∧
          (∀ event ∈ after, event.kind = .trade) ∧ Run answers most start before moment ∧
          outcome.Tells start moment.builder before events) ∧
    ∀ timer source now wakes ts t b, Tended timer config source start now wakes ts t b →
      (∃ events, Run source.Gives most start events ⟨b, t.cycle⟩ ∧ trades events = ts ∧
        t.calls = calls events ∧
        t.due = (waits config source events).foldl timer.ending now ∧
        ((∀ start duration, timer.ending start duration = start + duration) →
          t.due = now + (calls events).length * source.delay +
            count .failure events * config.retryDelay.toNat)) ∧
      (2 * budget + 1 ≤ wakes → t.isFinished = true) ∧
      (t.complete timer config source b).1.isFinished = true := by
  intro budget most
  constructor
  · intro answers events s run
    have counted := run.counted
    have kept := run.kept reached.shows
    have within := counted.within
    have few := run.length_le
    rw [run.budget_eq] at within few
    refine ⟨counted.attempts ▸ within, counted.attempts, kept.counted, counted.pauses, few,
      fun answering => exists_step answering s, ?_, ?_, ?_, ?_⟩
    · exact fun _ _ _ _ split => run.pushed reached.shows split
    · exact fun _ _ _ _ split => run.called reached.shows split
    · exact fun _ _ _ _ _ _ _ split => run.called_again reached.shows split
    · exact fun _ finished => run.ended reached.shows finished
  · intro timer source now wakes ts t b tended
    obtain ⟨events, run, trades_eq, waited, -⟩ := tended.run
    have due_of_exact (exact) := waited.due.trans (foldl_waits exact events now)
    exact ⟨⟨events, run, trades_eq, waited.calls, waited.due, due_of_exact⟩, tended.isFinished,
      tended.complete⟩

/-- The first of two fetches fails. A trade comes while it is to be retried, so that one bar less
is asked for; two bars go in, and the series does not get full. -/
theorem fetches_and_outcomes_after_failure :
    let trade (i : Int) : Trade Float := ⟨i, 1, 1, .buy, "BTC-USDT"⟩
    let start : Builder Float := Builder.addTrades ⟨.empty 1000, 1⟩ [trade 10]
    let page := [8, 9, 10].map fun i => Bar.ofTrade (trade i)
    let source := Source.scripted 20 [none, some page]
    ∃ (t : Task) (b : Builder Float) (events : List (Event Float)), start.Reachable ∧
      Tended .exact {} source start 0 4 [trade 11] t b ∧
      Run source.Gives 1000 start events ⟨b, t.cycle⟩ ∧
      t.cycle.phase = .finished (.exhausted 2 2) ∧ t.due = 1040 ∧
      calls events = [(10, 1000), (10, 999)] ∧ count .failure events = 1 ∧
      count .resume events = 1 ∧ (inserted events).length = 2 := by
  intro trade start page source
  have reached : start.Reachable := .addTrade (trade 10) (.new (new_eq (by decide) (by decide) rfl))
  have sorted : page.Pairwise (·.timestamp ≤ ·.timestamp) := by decide
  let first := (Task.start start.capacity 0).wake .exact {} source start
  let second := first.1.wake .exact {} source first.2
  let third := second.1.wake .exact {} source (second.2.addTrade (trade 11)).2
  have asked : Tended .exact {} source start 0 3 [trade 11] third.1 third.2 :=
    .wake (.trade (trade 11) (.wake (.wake .start)))
  have fetching : third.1.cycle.phase = .fetching 10 999 := by decide +kernel
  have attempts : third.1.cycle.attempts = 2 := by decide +kernel
  have answered : source.answer (third.1.cycle.attempts - 1) 10 999 = some page := by
    rw [attempts]
    rfl
  have tended := asked.wake_in_order fetching answered sorted
  obtain ⟨t, b, tended, phase, clock, fetched⟩ : ∃ (t : Task) (b : Builder Float),
      Tended .exact {} source start 0 4 [trade 11] t b ∧ t.cycle.phase = .finished (.exhausted 2 2) ∧
        t.due = 1040 ∧ t.calls = [(10, 1000), (10, 999)] :=
    ⟨_, _, tended, by decide +kernel, by decide +kernel, by decide +kernel⟩
  obtain ⟨runs, tasks⟩ := fetches_and_outcomes reached {}
  obtain ⟨⟨events, run, -, calls_eq, -, due⟩, -⟩ := tasks _ _ _ _ _ _ _ tended
  obtain ⟨-, -, -, pauses, -, -, -, -, -, ended⟩ := runs _ _ _ run
  obtain ⟨_, _, _, -, -, -, -, count, -⟩ := ended _ phase
  rw [phase, if_neg (by decide)] at pauses
  have elapsed : 1040 = 0 + 2 * 20 + Backfill.count .failure events * 1000 := by
    rw [← clock, due fun _ _ => rfl, ← calls_eq, fetched]
    rfl
  have once : Backfill.count .failure events = 1 := by omega
  exact ⟨t, b, events, reached, tended, run, phase, clock, calls_eq ▸ fetched, once,
    pauses.trans once, count.symm⟩

end TradeBars.Backfill
