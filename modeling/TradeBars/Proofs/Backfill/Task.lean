import TradeBars.Backfill.Task
import TradeBars.Proofs.Backfill.Calls

/-! A task takes the steps of its cycle and no others, whatever it waits for. Where it is at each
of its waits and at its end is where a run is, so that what holds of all runs holds there. -/
namespace TradeBars.Backfill

variable {α : Type} [Scalar α]

/-- Steps of a cycle, one after another, without trades. -/
inductive Path (answers : Int → Nat → Option (List (Bar α)) → Prop) (maxFetchLimit : Nat) :
    Shared α → List (Event α) → Shared α → Prop where
  | nil (s : Shared α) : Path answers maxFetchLimit s [] s
  | cons {s s' s'' : Shared α} {event : Event α} {events : List (Event α)} :
      Step answers maxFetchLimit s event s' → event.trade? = none →
      Path answers maxFetchLimit s' events s'' → Path answers maxFetchLimit s (event :: events) s''

section Path

variable {answers : Int → Nat → Option (List (Bar α)) → Prop} {maxFetchLimit : Nat}
  {start : Builder α} {s s' s'' : Shared α} {event : Event α} {events more : List (Event α)}

theorem Path.single (step : Step answers maxFetchLimit s event s')
    (noTrade : event.trade? = none) : Path answers maxFetchLimit s [event] s' :=
  .cons step noTrade (.nil s')

theorem Path.append (first : Path answers maxFetchLimit s events s')
    (second : Path answers maxFetchLimit s' more s'') :
    Path answers maxFetchLimit s (events ++ more) s'' := by
  induction first with
  | nil => exact second
  | cons step noTrade _ ih => exact .cons step noTrade (ih second)

theorem Path.trades_eq (path : Path answers maxFetchLimit s events s') : trades events = [] := by
  induction path with
  | nil => rfl
  | cons _ noTrade _ ih => rwa [trades, List.filterMap_cons_none noTrade]

theorem Run.along (run : Run answers maxFetchLimit start events s)
    (path : Path answers maxFetchLimit s more s') :
    Run answers maxFetchLimit start (events ++ more) s' := by
  induction path generalizing events with
  | nil => rwa [List.append_nil]
  | cons step _ _ ih => exact List.append_cons events _ _ ▸ ih (run.next step)

end Path

section Waits

variable {timer : Timer} {config : Config.Backfill} {source : Source α}

/-- How long an event lets the task wait: for the answer to a fetch, or after a failure. -/
@[simp] def Event.wait? (config : Config.Backfill) (source : Source α) : Event α → Option Nat
  | .look (some _) => some source.delay
  | .failure => some config.retryDelay.toNat
  | _ => none

/-- The waits that are asked for, in turn. -/
def waits (config : Config.Backfill) (source : Source α) (events : List (Event α)) : List Nat :=
  events.filterMap (Event.wait? config source)

omit [Scalar α] in
@[simp] theorem waits_nil (config : Config.Backfill) (source : Source α) :
    waits config source [] = [] := rfl

omit [Scalar α] in
@[simp] theorem waits_cons (config : Config.Backfill) (source : Source α) (event : Event α)
    (events : List (Event α)) : waits config source (event :: events) =
      (event.wait? config source).toList ++ waits config source events := by
  unfold waits
  cases found : event.wait? config source with
  | none => rw [List.filterMap_cons_none found]; rfl
  | some duration => rw [List.filterMap_cons_some found]; rfl

omit [Scalar α] in
theorem waits_append (config : Config.Backfill) (source : Source α)
    (events more : List (Event α)) :
    waits config source (events ++ more) = waits config source events ++ waits config source more :=
  List.filterMap_append

omit [Scalar α] in
/-- Where waits are as long as they are asked to be, each fetch takes the time of the source and
each failure the pause. -/
theorem foldl_waits (exact : ∀ start duration, timer.ending start duration = start + duration)
    (events : List (Event α)) (now : Nat) :
    (waits config source events).foldl timer.ending now =
      now + (calls events).length * source.delay +
        count .failure events * config.retryDelay.toNat := by
  induction events generalizing now with
  | nil => simp
  | cons event events ih =>
    rw [waits_cons, List.foldl_append, ih]
    cases event with
    | look call? => cases call? with
      | none => simp
      | some call =>
        simp only [Event.wait?, Event.call?, Event.kind, Option.toList_some, List.foldl_cons,
          List.foldl_nil, exact, calls_cons, List.singleton_append, List.length_cons, Nat.succ_mul,
          count_cons, reduceCtorEq, if_false, Nat.zero_add]
        omega
    | failure =>
      simp only [Event.wait?, Event.call?, Event.kind, Option.toList_some, Option.toList_none,
        List.foldl_cons, List.foldl_nil, exact, calls_cons, List.nil_append, count_cons, if_true,
        Nat.add_mul, Nat.one_mul]
      omega
    | trade | answer | resume => simp

/-- What some events do to the clock and the calls of a task. -/
structure Waited (timer : Timer) (config : Config.Backfill) (source : Source α)
    (events : List (Event α)) (t t' : Task) : Prop where
  calls : t'.calls = t.calls ++ calls events
  due : t'.due = (waits config source events).foldl timer.ending t.due

end Waits

section Task

variable {answers : Int → Nat → Option (List (Bar α)) → Prop} {timer : Timer}
  {config : Config.Backfill} {source : Source α} {start b : Builder α} {events : List (Event α)}
  {t : Task}

omit [Scalar α] in
/-- A look adds its fetch, if there is one, to the calls, and waits for the answer. -/
theorem consult_eq (t : Task) (timer : Timer) (config : Config.Backfill) (source : Source α)
    (b : Builder α) :
    let cycle := t.cycle.consult config.maxFetchLimit.toNat b
    t.consult timer config source b =
      ⟨cycle, (waits config source [.look cycle.phase.call?]).foldl timer.ending t.due,
        t.calls ++ cycle.phase.call?.toList⟩ := by
  intro cycle
  unfold Task.consult
  cases looked : cycle.phase with
  | fetching upTo limit => simp [cycle, looked]
  | reading | pausing | finished => simp [cycle, looked]

omit [Scalar α] in
theorem cycle_consult (t : Task) (timer : Timer) (config : Config.Backfill) (source : Source α)
    (b : Builder α) :
    (t.consult timer config source b).cycle = t.cycle.consult config.maxFetchLimit.toNat b := by
  rw [consult_eq]

/-- A task that goes on takes a look, or it meets with a failure. -/
theorem Path.wake (timer : Timer)
    (possible : ∀ call upTo limit, answers upTo limit (source.answer call upTo limit))
    (t : Task) (b : Builder α) :
    ∃ more : List (Event α), Path answers config.maxFetchLimit.toNat ⟨b, t.cycle⟩ more
        ⟨(t.wake timer config source b).2, (t.wake timer config source b).1.cycle⟩ ∧
      Waited timer config source more t (t.wake timer config source b).1 ∧
      count .look more + count .failure more = if t.isFinished then 0 else 1 := by
  unfold Task.wake Task.isFinished
  cases phase : t.cycle.phase with
  | reading =>
    dsimp only
    rw [consult_eq]
    exact ⟨_, .single (.look _ phase) rfl, ⟨by simp, rfl⟩, by simp⟩
  | fetching upTo limit =>
    have known := possible (t.cycle.attempts - 1) upTo limit
    dsimp only
    cases answered : source.answer (t.cycle.attempts - 1) upTo limit with
    | some bars =>
      cases received : t.cycle.receive (some bars) b with
      | mk cycle filled =>
        have reading : cycle.phase = .reading := congrArg (·.1.phase) received.symm
        dsimp only
        rw [consult_eq]
        exact ⟨_, .cons (.answer _ phase (answered ▸ known) received) rfl
          (.single (.look _ reading) rfl), ⟨by simp, rfl⟩, by simp⟩
    | none =>
      exact ⟨_, .single (.failure _ phase (answered ▸ known)) rfl, ⟨by simp, rfl⟩, by simp⟩
  | pausing =>
    dsimp only
    rw [consult_eq]
    exact ⟨_, .cons (.resume _ phase) rfl (.single (.look _ rfl) rfl), ⟨by simp, rfl⟩, by simp⟩
  | finished => exact ⟨[], .nil _, ⟨by simp, rfl⟩, rfl⟩

theorem advance_succ (timer : Timer) (config : Config.Backfill) (source : Source α)
    (before : Option Nat) (waits : Nat) (t : Task) (b : Builder α) :
    Task.advance timer config source before (waits + 1) t b =
        Task.advance timer config source before waits (t.wake timer config source b).1
          (t.wake timer config source b).2 ∨
      Task.advance timer config source before (waits + 1) t b = (t, b) :=
  ite_eq_or_eq _ _ _

/-- However far a task goes, it goes along a path of its cycle. -/
theorem Path.advance (timer : Timer)
    (possible : ∀ call upTo limit, answers upTo limit (source.answer call upTo limit))
    (before : Option Nat) (waits : Nat) (t : Task) (b : Builder α) :
    ∃ more : List (Event α), Path answers config.maxFetchLimit.toNat ⟨b, t.cycle⟩ more
      ⟨(Task.advance timer config source before waits t b).2,
        (Task.advance timer config source before waits t b).1.cycle⟩ := by
  induction waits generalizing t b with
  | zero => exact ⟨[], .nil _⟩
  | succ waits ih =>
    obtain goesOn | stays := advance_succ timer config source before waits t b
    · rw [goesOn]
      obtain ⟨first, woken, -⟩ := Path.wake timer possible t b
      obtain ⟨rest, gone⟩ := ih (t.wake timer config source b).1 (t.wake timer config source b).2
      exact ⟨first ++ rest, woken.append gone⟩
    · rw [stays]
      exact ⟨[], .nil _⟩

/-- A whole cycle without trades is a run. -/
theorem Run.fill
    (possible : ∀ call upTo limit, answers upTo limit (source.answer call upTo limit))
    (timer : Timer) (config : Config.Backfill) (b : Builder α) :
    ∃ events : List (Event α), trades events = [] ∧
      Run answers config.maxFetchLimit.toNat b events
        ⟨(fill config source b timer).2, (fill config source b timer).1.cycle⟩ := by
  let t := Task.start b.capacity 0
  obtain ⟨events, path⟩ := Path.advance timer possible none t.mostWaits t b
  exact ⟨events, path.trades_eq, Run.start.along path⟩

end Task

end TradeBars.Backfill
