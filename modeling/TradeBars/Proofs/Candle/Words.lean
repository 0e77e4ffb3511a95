import TradeBars.Proofs.Candle.Resample

/-! The grid of a resample in words of 64 bits. For times that the calendar covers, and for any
interval that can be read, no step of its arithmetic leaves the words, no bucket starts outside the
calendar, and every candle has its bucket. So a resample fails only with its interval. -/
namespace TradeBars.Candle

/-- The number, if a word of 64 bits holds it with its sign. -/
def word? (n : Int) : Option Int :=
  if -0x8000000000000000 ≤ n ∧ n < 0x8000000000000000 then some n else none

/-- Words hold the seconds of the calendar. -/
theorem word?_second {n : Int} (after : Instant.firstSecond ≤ n) (before : n ≤ Instant.lastSecond) :
    word? n = some n := by
  unfold Instant.firstSecond Instant.lastSecond at *
  exact if_pos (by omega)

/-- Words hold what lies between two seconds of the calendar, and the number of the seconds. -/
theorem word?_distance {n : Int} (nonneg : 0 ≤ n)
    (le : n ≤ Instant.lastSecond - Instant.firstSecond + 1) : word? n = some n := by
  unfold Instant.firstSecond Instant.lastSecond at *
  exact if_pos (by omega)

namespace Grid

/-- The number of the bucket that holds a second, in words. -/
def bucket? (origin step second : Int) : Option Int := do
  let past ← word? (second - origin)
  word? (past / step)

/-- The grid that covers a stretch of time, in words. -/
def covering? (step first last : Int) : Option Grid := do
  let pastMidnight ← word? (first % 86400)
  let origin ← word? (first - pastMidnight)
  let firstBucket ← bucket? origin step first
  let lastBucket ← bucket? origin step last
  let apart ← word? (lastBucket - firstBucket)
  let count ← word? (apart + 1)
  return ⟨origin, step, firstBucket, count.toNat⟩

/-- The first second of a bucket, in words. -/
def start? (g : Grid) (i : Nat) : Option Int := do
  let number ← word? (g.firstBucket + i)
  let past ← word? (number * g.step)
  word? (g.origin + past)

/-- The place of the bucket that holds a second, counted from the first bucket, in words. -/
def index? (g : Grid) (second : Int) : Option Int := do
  let number ← bucket? g.origin g.step second
  word? (number - g.firstBucket)

section Words

variable {step first last : Int} (positive : 0 < step) (after : Instant.firstSecond ≤ first)
  (order : first ≤ last) (before : last ≤ Instant.lastSecond)
include positive after before

theorem bucket_bounds {second : Int} (late : midnight first ≤ second) (early : second ≤ last) :
    0 ≤ (covering step first last).bucket second ∧
      (covering step first last).bucket second ≤ Instant.lastSecond - Instant.firstSecond := by
  have origin := firstSecond_le_midnight after
  have past : 0 ≤ second - midnight first := by omega
  have nonneg : 0 ≤ (covering step first last).bucket second := Int.ediv_nonneg past positive.le
  have le : (covering step first last).bucket second ≤ second - midnight first :=
    Int.ediv_le_self step past
  omega

theorem bucket?_eq {second : Int} (late : midnight first ≤ second) (early : second ≤ last) :
    bucket? (midnight first) step second = some ((covering step first last).bucket second) := by
  have origin := firstSecond_le_midnight after
  obtain ⟨nonneg, le⟩ := bucket_bounds positive after before late early
  have past : word? (second - midnight first) = some (second - midnight first) :=
    word?_distance (by omega) (by omega)
  have number : word? ((covering step first last).bucket second) =
      some ((covering step first last).bucket second) := word?_distance nonneg (by omega)
  rw [bucket?, past]
  exact number

include order

/-- The numbers of the buckets, from the first one on. -/
theorem number_bounds {i : Nat} (inside : i < (covering step first last).count) :
    0 ≤ (covering step first last).firstBucket ∧
      (covering step first last).firstBucket + i ≤ Instant.lastSecond - Instant.firstSecond := by
  have count := count_eq positive order
  obtain ⟨-, le⟩ := bucket_bounds positive after before ((midnight_le first).trans order) le_rfl
  exact ⟨firstBucket_nonneg positive, by omega⟩

theorem covering?_eq : covering? step first last = some (covering step first last) := by
  have origin := firstSecond_le_midnight after
  have day := midnight_le first
  have front := bucket?_eq positive after before day order
  have back := bucket?_eq positive after before (day.trans order) le_rfl
  have count := count_eq positive order
  have bucketed := count_pos positive order
  obtain ⟨nonneg, le⟩ := number_bounds positive after order before (Nat.sub_one_lt bucketed.ne')
  rw [bucket_first] at front
  have pastMidnight : word? (first % 86400) = some (first % 86400) := by
    apply word?_distance (by omega)
    unfold Instant.firstSecond Instant.lastSecond
    omega
  have aligned : word? (first - first % 86400) = some (midnight first) :=
    word?_second origin (by omega)
  have apart : word? ((covering step first last).bucket last - (covering step first last).firstBucket)
      = some (((covering step first last).count : Int) - 1) := by
    rw [word?_distance (by omega) (by omega)]
    congr 1
    omega
  have counted : word? ((covering step first last).count : Int) =
      some ((covering step first last).count : Int) := word?_distance (by omega) (by omega)
  simp only [covering?, pastMidnight, aligned, front, back, apart, sub_add_cancel, counted,
    Option.bind_eq_bind, Option.bind_some, Int.toNat_natCast]
  rfl

theorem start?_eq {i : Nat} (inside : i < (covering step first last).count) :
    (covering step first last).start? i = some ((covering step first last).start i) := by
  have origin := firstSecond_le_midnight after
  have bounds := start_bounds positive order inside
  obtain ⟨nonneg, le⟩ := number_bounds positive after order before inside
  have number : word? ((covering step first last).firstBucket + i) =
      some ((covering step first last).firstBucket + i) := word?_distance (by omega) (by omega)
  have past : word? (((covering step first last).firstBucket + i) * step) =
      some (((covering step first last).firstBucket + i) * step) := by
    simp only [start, covering_origin, covering_step] at bounds
    exact word?_distance (by omega) (by omega)
  have started : word? ((covering step first last).start i) =
      some ((covering step first last).start i) :=
    word?_second (origin.trans bounds.1) (bounds.2.trans before)
  simp only [start?, number, covering_step, past, Option.bind_eq_bind, Option.bind_some]
  exact started

theorem exists_index? {second : Int} (late : first ≤ second) (early : second ≤ last) :
    ∃ i < (covering step first last).count,
      (covering step first last).index? second = some (i : Int) := by
  obtain ⟨i, inside, bucket_eq⟩ := exists_index positive late early
  have number := bucket?_eq positive after before ((midnight_le first).trans late) early
  obtain ⟨nonneg, le⟩ := number_bounds positive after order before inside
  have place : word? ((covering step first last).bucket second -
      (covering step first last).firstBucket) = some (i : Int) := by
    rw [bucket_eq, add_sub_cancel_left]
    exact word?_distance (by omega) (by omega)
  refine ⟨i, inside, ?_⟩
  simp only [index?, covering_origin, covering_step, number, Option.bind_eq_bind, Option.bind_some]
  exact place

end Words

end Grid

section Resample

variable {α : Type}

/-- The bars of a resample stand in a grid whose arithmetic stays in words: each starts at a second of
the calendar, and each candle finds one of them. -/
structure InWords (step : Int) (cs bars : List (Candle α)) (g : Grid) : Prop where
  grid : ∃ first last, Spans cs first last ∧ Grid.covering? step first last = some g
  origin : Instant.firstSecond ≤ g.origin ∧ g.origin ≤ Instant.lastSecond
  count_pos : 0 < g.count
  length_eq : bars.length = g.count
  start {i : Nat} {bar : Candle α} : bars[i]? = some bar →
    g.start? i = some bar.openTime.seconds ∧ bar.openTime.Representable
  index : ∀ c ∈ cs, ∃ i < bars.length, g.index? c.openTime.seconds = some (i : Int)

theorem inWords_resampled [Scalar α] {step first last : Int} (positive : 0 < step)
    {cs : List (Candle α)} (spans : Spans cs first last) (after : Instant.firstSecond ≤ first)
    (before : last ≤ Instant.lastSecond) :
    InWords step cs (resampled (Grid.covering step first last) cs)
      (Grid.covering step first last) := by
  have order := spans.first_le_last
  have origin := firstSecond_le_midnight after
  have day := midnight_le first
  constructor
  case grid => exact ⟨first, last, spans, Grid.covering?_eq positive after order before⟩
  case origin => exact ⟨origin, day.trans (order.trans before)⟩
  case count_pos => exact Grid.count_pos positive order
  case length_eq => exact length_resampled _ _
  case start =>
    intro i bar found
    have inside : i < (Grid.covering step first last).count := by
      rw [← length_resampled (Grid.covering step first last) cs]
      exact (List.getElem?_eq_some_iff.mp found).1
    obtain rfl := getElem?_resampled found
    have bounds := Grid.start_bounds positive order inside
    rw [openTime_bar]
    exact ⟨Grid.start?_eq positive after order before inside,
      origin.trans bounds.1, bounds.2.trans before⟩
  case index =>
    intro c member
    rw [length_resampled]
    exact Grid.exists_index? positive after order before (spans.first_le c member)
      (spans.le_last c member)

/-- A resample fails if its interval cannot be read, and for no other reason: with times that the
calendar covers and any interval, the bars are those of a grid in words. -/
theorem resample_fails_only_by_interval [Scalar α] (cs : List (Candle α))
    (representable : ∀ c ∈ cs, c.openTime.Representable) (text : String) :
    (Interval.parse? text.toList = none → resample cs text = .error (.interval text)) ∧
    ∀ interval, Interval.parse? text.toList = some interval →
      ∃ bars, resample cs text = .ok bars ∧ (cs = [] → bars = []) ∧
        (cs ≠ [] → ∃ g, InWords interval.seconds cs bars g) := by
  constructor
  · intro malformed
    have unread : Interval.read text = .error (.interval text) := by
      simp [Interval.read, malformed]
    rw [resample, unread]
    rfl
  · intro interval parsed
    have read : Interval.read text = .ok interval := by simp [Interval.read, parsed]
    by_cases empty : cs = []
    · subst empty
      exact ⟨[], resample_nil read, fun _ => rfl, fun nonempty => absurd rfl nonempty⟩
    · obtain ⟨first, last, spans⟩ := exists_spans empty
      obtain ⟨after, before⟩ := spans.representable representable
      exact ⟨_, resample_eq read spans after before, fun isEmpty => absurd isEmpty empty,
        fun _ => ⟨_, inWords_resampled interval.positive spans after before⟩⟩

/-- The longest interval, with candles in the first and in the last second of the calendar, and one
that is too long by a second. -/
theorem resample_fails_only_by_interval_longest :
    let cs : List (Candle Float) := [⟨⟨Instant.lastSecond, 999999999⟩, some 1, none, none, none, none⟩,
      ⟨⟨Instant.firstSecond, 0⟩, none, none, none, some 2, none⟩]
    (∀ c ∈ cs, c.openTime.Representable) ∧
      Interval.parse? "9223372036854775807s".toList =
        some ⟨9223372036854775807, by decide, by decide⟩ ∧
      Interval.parse? "9223372036854775808s".toList = none ∧
      (∃ bars g, resample cs "9223372036854775807s" = .ok bars ∧
        InWords 9223372036854775807 cs bars g) ∧
      resample cs "9223372036854775808s" = .error (.interval "9223372036854775808s") := by
  intro cs
  have representable : ∀ c ∈ cs, c.openTime.Representable := by
    simp [cs, Instant.Representable, Instant.firstSecond, Instant.lastSecond]
  have parsed : Interval.parse? "9223372036854775807s".toList =
      some ⟨9223372036854775807, by decide, by decide⟩ := by decide
  have malformed : Interval.parse? "9223372036854775808s".toList = none := by decide
  obtain ⟨bars, made, -, nonempty⟩ :=
    (resample_fails_only_by_interval cs representable "9223372036854775807s").2 _ parsed
  obtain ⟨g, words⟩ := nonempty (List.cons_ne_nil _ _)
  exact ⟨representable, parsed, malformed, ⟨bars, g, made, words⟩,
    (resample_fails_only_by_interval cs representable _).1 malformed⟩

end Resample

end TradeBars.Candle
