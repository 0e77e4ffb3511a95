import TradeBars.Feed.Session
import TradeBars.Proofs.Backfill.Task

/-! The runs of a session: payloads are handled while a backfill takes its steps, in any
interleaving and with any answers of its source. Rejected payloads can be left out of a run, and
what a session does in time is a run on all that was sent. -/
namespace TradeBars.Feed

section Handle

variable {f : Feed} {v : Json}

theorem handle_of_error {rejection : Rejection}
    (unreadable : Payload.trade f.aliases v = .error rejection) :
    f.handle v =
      (none, { f with
        stats := { f.stats with
          received := f.stats.received + 1
          rejected := f.stats.rejected + 1 } }) := by
  simp only [handle, unreadable]

theorem handle_of_trade {t : Trade Float} (readable : Payload.trade f.aliases v = .ok t) :
    f.handle v =
      (some (f.builder.addTrade t).1, { f with
        builder := (f.builder.addTrade t).2
        stats := { f.stats with
          received := f.stats.received + 1
          accepted := f.stats.accepted + 1
          opened := f.stats.opened + if (f.builder.addTrade t).1.opened then 1 else 0
          closed := f.stats.closed + if (f.builder.addTrade t).1.closed then 1 else 0 } }) := by
  simp only [handle, readable]

end Handle

namespace Session

def fresh (b : Builder Float) (aliases : Aliases)
    (backfill : Option (Backfill.Source Float × Config.Backfill)) : Session where
  feed := { builder := b, aliases }
  backfill

inductive Event where
  /-- A payload, and the update that it leads to unless it is rejected. -/
  | payload (v : Json) (update : Option Update)
  | backfill (event : Backfill.Event Float)
  | pass

/-- A source that may answer whatever it likes. -/
def anyAnswer : Int → Nat → Option (List (Bar Float)) → Prop := fun _ _ _ => True

/-- The steps of a session whose backfill may get any answers. The clock, what waits to be
handled, and notes and times of the backfill may change whenever they like. -/
inductive Step : Session → Event → Session → Prop where
  | payload (s : Session) (v : Json) : Step s (.payload v (s.feed.handle v).1) (s.handle v)
  | backfill (s : Session) {source : Backfill.Source Float} {config : Config.Backfill}
      {task : Backfill.Task} {event : Backfill.Event Float} {shared : Backfill.Shared Float} :
      s.backfill = some (source, config) → s.task = some task → event.trade? = none →
      Backfill.Step anyAnswer config.maxFetchLimit.toNat ⟨s.feed.builder, task.cycle⟩
        event shared →
      Step s (.backfill event)
        { s with
          feed := { s.feed with builder := shared.builder }
          task := some { task with cycle := shared.cycle } }
  | pass {s s' : Session} : s'.feed = s.feed → s'.backfill = s.backfill →
      s'.task.map (·.cycle) = s.task.map (·.cycle) → Step s .pass s'

inductive Run (start : Session) : List Event → Session → Prop where
  | start : Run start [] start
  | next {events : List Event} {s s' : Session} {event : Event} :
      Run start events s → Step s event s' → Run start (events ++ [event]) s'

def Event.payload? : Event → Option Json
  | .payload v _ => some v
  | _ => none

def Event.isRejected : Event → Bool
  | .payload _ none => true
  | _ => false

/-- What the event is to a builder that trades share with a backfill. -/
def Event.shared? (aliases : Aliases) : Event → Option (Backfill.Event Float)
  | .payload v _ => (Payload.trade aliases v).toOption.map .trade
  | .backfill event => some event
  | .pass => none

def payloads (events : List Event) : List Json := events.filterMap Event.payload?

def shared (aliases : Aliases) (events : List Event) : List (Backfill.Event Float) :=
  events.filterMap (Event.shared? aliases)

/-- The trades of the payloads that can be read. -/
def readable (aliases : Aliases) (payloads : List Json) : List (Trade Float) :=
  payloads.filterMap fun v => (Payload.trade aliases v).toOption

section Events

variable {aliases : Aliases} {events : List Event} {v : Json}

theorem payloads_append (events more : List Event) :
    payloads (events ++ more) = payloads events ++ payloads more := List.filterMap_append

theorem payloads_concat (events : List Event) (v : Json) (update : Option Update) :
    payloads (events ++ [.payload v update]) = payloads events ++ [v] := payloads_append _ _

theorem shared_append (aliases : Aliases) (events more : List Event) :
    shared aliases (events ++ more) = shared aliases events ++ shared aliases more :=
  List.filterMap_append

theorem readable_concat_of_error {rejection : Rejection} (vs : List Json)
    (unreadable : Payload.trade aliases v = .error rejection) :
    readable aliases (vs ++ [v]) = readable aliases vs := by
  simp [readable, unreadable, Except.toOption]

theorem readable_concat_of_trade {t : Trade Float} (vs : List Json)
    (trade : Payload.trade aliases v = .ok t) :
    readable aliases (vs ++ [v]) = readable aliases vs ++ [t] := by
  simp [readable, trade, Except.toOption]

theorem length_readable_le (aliases : Aliases) (vs : List Json) :
    (readable aliases vs).length ≤ vs.length := List.length_filterMap_le _ _

end Events

section Handle

variable {start s : Session} {events : List Event} {v : Json}

/-- A rejected payload changes the counters only. -/
theorem handle_of_unreadable {rejection : Rejection}
    (unreadable : Payload.trade s.feed.aliases v = .error rejection) :
    s.handle v =
      { s with
        feed := { s.feed with
          stats := { s.feed.stats with
            received := s.feed.stats.received + 1
            rejected := s.feed.stats.rejected + 1 } } } := by
  simp [handle, handle_of_error unreadable]

theorem task_handle {t : Trade Float}
    (trade : Payload.trade s.feed.aliases v = .ok t) :
    (s.handle v).task.map (·.cycle) =
      if s.task.isNone && s.backfill.isSome && (s.feed.builder.addTrade t).1.opened then
        some (.start (s.feed.builder.addTrade t).2.capacity)
      else s.task.map (·.cycle) := by
  simp only [handle, handle_of_trade trade, Option.map_some, Option.getD_some]
  split <;> rfl

def withStats (s : Session) (stats : Stats) : Session := { s with feed := { s.feed with stats } }

theorem handle_of_rejected (rejected : (s.feed.handle v).1 = none) :
    ∃ stats, s.handle v = s.withStats stats := by
  cases read : Payload.trade s.feed.aliases v with
  | error rejection => exact ⟨_, handle_of_unreadable read⟩
  | ok t =>
    rw [handle_of_trade read] at rejected
    contradiction

theorem handle_withStats (s : Session) (stats : Stats) (v : Json) :
    ((s.withStats stats).feed.handle v).1 = (s.feed.handle v).1 ∧
      ∃ after, (s.withStats stats).handle v = (s.handle v).withStats after := by
  cases read : Payload.trade s.feed.aliases v with
  | error rejection =>
    have same : Payload.trade (s.withStats stats).feed.aliases v = .error rejection := read
    rw [handle_of_error read, handle_of_error same, handle_of_unreadable read,
      handle_of_unreadable same]
    exact ⟨rfl, _, rfl⟩
  | ok t =>
    have same : Payload.trade (s.withStats stats).feed.aliases v = .ok t := read
    rw [handle, handle, handle_of_trade read, handle_of_trade same]
    exact ⟨rfl, _, rfl⟩

/-- Without the rejected payloads a run goes the same way, with the same updates. -/
theorem Run.withoutRejected (run : Run start events s) :
    ∃ stats, Run start (events.filter (!·.isRejected)) (s.withStats stats) := by
  induction run with
  | start => exact ⟨start.feed.stats, .start⟩
  | @next events s s' event _ step ih =>
    obtain ⟨stats, run⟩ := ih
    rw [List.filter_append]
    cases step with
    | payload v =>
      obtain ⟨sameUpdate, after, handled⟩ := handle_withStats s stats v
      cases result : (s.feed.handle v).1 with
      | none =>
        obtain ⟨counted, unchanged⟩ := handle_of_rejected result
        rw [unchanged]
        exact ⟨stats, (List.append_nil _).symm ▸ run⟩
      | some update =>
        refine ⟨after, ?_⟩
        rw [← handled]
        have step := Step.payload (s.withStats stats) v
        rw [sameUpdate, result] at step
        exact run.next step
    | backfill asked going noTrade step =>
      exact ⟨stats, run.next (.backfill (s.withStats stats) asked going noTrade step)⟩
    | pass feed configured cycle =>
      have step : Step (s.withStats stats) .pass (s'.withStats stats) :=
        .pass (by rw [withStats, withStats, feed]) configured cycle
      exact ⟨stats, run.next step⟩

end Handle

section Timed

variable {start s s' : Session} {events : List Event} {all : List Json}

/-- A state of a run in which all that was sent is handled or waits. -/
def Sent (start : Session) (all : List Json) (s : Session) : Prop :=
  ∃ events, payloads events ++ s.sent = all ∧ Run start events s

theorem Run.foldl_handle (run : Run start events s) (vs : List Json) :
    ∃ more, payloads more = vs ∧ Run start (events ++ more) (vs.foldl handle s) := by
  induction vs generalizing events s with
  | nil => exact ⟨[], rfl, (List.append_nil events).symm ▸ run⟩
  | cons v vs ih =>
    obtain ⟨more, rfl, run⟩ := ih (run.next (.payload s v))
    rw [← List.append_cons] at run
    exact ⟨_ :: more, rfl, run⟩

theorem sent_foldl_handle (s : Session) (vs : List Json) : (vs.foldl handle s).sent = s.sent := by
  induction vs generalizing s with
  | nil => rfl
  | cons v vs ih => exact ih (s.handle v)

@[simp] theorem sent_deliver (s : Session) : s.deliver.sent = [] := sent_foldl_handle _ _

@[simp] theorem sent_goOn (s : Session) (before : Option Nat) : (s.goOn before).sent = s.sent := by
  unfold goOn
  split <;> rfl

theorem Sent.pass (sent : Sent start all s) (feed : s'.feed = s.feed)
    (configured : s'.backfill = s.backfill) (cycle : s'.task.map (·.cycle) = s.task.map (·.cycle))
    (waiting : s'.sent = s.sent) : Sent start all s' := by
  obtain ⟨events, rfl, run⟩ := sent
  refine ⟨_, ?_, run.next (.pass feed configured cycle)⟩
  rw [waiting, payloads_append]
  exact congrArg (· ++ s.sent) (List.append_nil _)

theorem Sent.deliver (sent : Sent start all s) : Sent start all s.deliver := by
  obtain ⟨events, rfl, run⟩ := sent
  have step : Step s .pass { s with sent := [] } := .pass rfl rfl rfl
  obtain ⟨more, handled, run⟩ := (run.next step).foldl_handle s.sent
  refine ⟨_, ?_, run⟩
  rw [sent_deliver, List.append_nil, payloads_append, payloads_append, handled]
  exact congrArg (· ++ s.sent) (List.append_nil _)

def place (s : Session) (task : Backfill.Task) (shared : Backfill.Shared Float) : Session :=
  { s with
    feed := { s.feed with builder := shared.builder }
    task := some { task with cycle := shared.cycle } }

theorem Run.path {source : Backfill.Source Float} {config : Config.Backfill}
    (asked : s.backfill = some (source, config)) {task : Backfill.Task}
    {before after : Backfill.Shared Float} {steps : List (Backfill.Event Float)}
    (path : Backfill.Path anyAnswer config.maxFetchLimit.toNat before steps after)
    (run : Run start events (s.place task before)) :
    Run start (events ++ steps.map .backfill) (s.place task after) := by
  induction path generalizing events with
  | nil => exact (List.append_nil events).symm ▸ run
  | @cons before _ _ _ _ step noTrade _ ih =>
    have going : (s.place task before).task = some { task with cycle := before.cycle } := rfl
    have stepped := Step.backfill (s.place task before) asked going noTrade step
    have gone := ih (run.next stepped)
    rwa [← List.append_cons] at gone

theorem payloads_map_backfill (steps : List (Backfill.Event Float)) :
    payloads (steps.map .backfill) = [] := by
  rw [payloads, List.filterMap_map]
  exact List.filterMap_eq_nil_iff.mpr fun _ _ => rfl

theorem Sent.goOn (sent : Sent start all s) (before : Option Nat) :
    Sent start all (s.goOn before) := by
  obtain ⟨events, rfl, run⟩ := sent
  unfold Session.goOn
  split
  · next source config task asked going =>
    have possible (call upTo limit) : anyAnswer upTo limit (source.answer call upTo limit) :=
      trivial
    obtain ⟨steps, path⟩ :=
      Backfill.Path.advance s.timer possible before task.mostWaits task s.feed.builder
    have here : s = s.place task ⟨s.feed.builder, task.cycle⟩ := by
      cases s
      cases going
      rfl
    have gone : Run start _ _ := Run.path asked path (here ▸ run)
    refine Sent.pass ⟨_, ?_, gone⟩ rfl rfl rfl rfl
    rw [payloads_append, payloads_map_backfill, List.append_nil]
    rfl
  · exact ⟨events, rfl, run⟩

theorem Sent.wait (sent : Sent start all s) (pause : Nat) : Sent start all (s.wait pause) := by
  unfold Session.wait
  split
  · exact sent.pass rfl rfl rfl rfl
  · exact (sent.deliver.goOn _).pass rfl rfl rfl rfl

theorem Sent.take (sent : Sent start all s) (batch : Batch) :
    Sent start (all ++ batch.payloads) (s.take batch) := by
  obtain ⟨events, rfl, run⟩ := sent
  have step : Step s .pass { s with sent := s.sent ++ batch.payloads } := .pass rfl rfl rfl
  have queued : Sent start (payloads events ++ s.sent ++ batch.payloads)
      { s with sent := s.sent ++ batch.payloads } := by
    refine ⟨_, ?_, run.next step⟩
    rw [payloads_append, List.append_assoc, List.append_assoc]
    rfl
  unfold Session.take
  cases batch.pause with
  | none => exact queued
  | some pause => exact queued.wait pause

theorem Sent.foldl_take (sent : Sent start all s) (batches : List Batch) :
    Sent start (all ++ batches.flatMap (·.payloads)) (batches.foldl Session.take s) := by
  induction batches generalizing all s with
  | nil => rwa [List.flatMap_nil, List.append_nil]
  | cons batch batches ih =>
    rw [List.flatMap_cons, ← List.append_assoc]
    exact ih (sent.take batch)

/-- At the end nothing waits any more. -/
theorem Sent.close (sent : Sent start all s) :
    ∃ events, payloads events = all ∧ Run start events s.close := by
  have gone := sent.deliver.goOn none
  have handled : (s.deliver.goOn none).sent = [] := by simp
  have closed : Sent start all s.close ∧ s.close.sent = [] := by
    unfold Session.close
    dsimp only
    split
    · exact ⟨gone.pass rfl rfl rfl rfl, handled⟩
    · exact ⟨gone, handled⟩
  obtain ⟨⟨events, rfl, run⟩, waiting⟩ := closed
  exact ⟨events, by rw [waiting, List.append_nil], run⟩

/-- A session in time is one of the runs, on all payloads of its batches, however long its waits
take. -/
theorem exists_run_of_batches (b : Builder Float) (aliases : Aliases) (timer : Timer)
    (backfill : Option (Backfill.Source Float × Config.Backfill)) (batches : List Batch) :
    ∃ events, payloads events = batches.flatMap (·.payloads) ∧
      Run (fresh b aliases backfill) events
        ({ fresh b aliases backfill with timer }.run batches) := by
  have untimed : Sent (fresh b aliases backfill) [] (fresh b aliases backfill) :=
    ⟨[], rfl, .start⟩
  have start : Sent (fresh b aliases backfill) [] { fresh b aliases backfill with timer } :=
    untimed.pass rfl rfl rfl rfl
  exact (start.foldl_take batches).close

end Timed

end Session

end TradeBars.Feed
