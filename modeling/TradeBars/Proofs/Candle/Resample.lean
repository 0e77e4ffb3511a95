import TradeBars.Proofs.Candle.Column
import TradeBars.Proofs.Candle.Grid
import TradeBars.Proofs.Outcomes
import TradeBars.Proofs.TimeOrder
import Mathlib.Data.List.Pairwise

/-! A resample by the earliest and the latest second of its candles: one candle for each
bucket of the grid that covers them, made of what the sorted candles have in it. It does not
fail, for the grid begins on a midnight and the calendar does as well. -/
namespace TradeBars

/-- The calendar covers the time, as it covers every time that is read. -/
def Instant.Representable (t : Instant) : Prop :=
  Instant.firstSecond ≤ t.seconds ∧ t.seconds ≤ Instant.lastSecond

theorem Instant.le_iff {a b : Instant} :
    a.le b = true ↔ a.seconds < b.seconds ∨ a.seconds = b.seconds ∧ a.nanos ≤ b.nanos := by
  simp [Instant.le]

namespace Candle

variable {α : Type}

section InOrder

theorem openTime_le_trans (a b c : Candle α) (ab : a.openTime.le b.openTime = true)
    (bc : b.openTime.le c.openTime = true) : a.openTime.le c.openTime = true := by
  rw [Instant.le_iff] at *
  omega

theorem openTime_le_total (a b : Candle α) :
    (a.openTime.le b.openTime || b.openTime.le a.openTime) = true := by
  rw [Bool.or_eq_true, Instant.le_iff, Instant.le_iff]
  omega

theorem stableOrder_inOrder (cs : List (Candle α)) :
    StableOrder (fun a b => a.openTime.le b.openTime) (inOrder cs) cs :=
  stableOrder_mergeSort openTime_le_trans openTime_le_total cs

theorem eq_inOrder {cs ds : List (Candle α)}
    (order : StableOrder (fun a b => a.openTime.le b.openTime) ds cs) : ds = inOrder cs := by
  refine StableOrder.unique ?_ order (stableOrder_inOrder cs)
  intro a
  simp [Instant.le_iff]

theorem inOrder_of_pairwise {cs : List (Candle α)}
    (sorted : cs.Pairwise fun a b => a.openTime.le b.openTime = true) : inOrder cs = cs :=
  List.mergeSort_of_pairwise sorted

theorem mem_inOrder {cs : List (Candle α)} {c : Candle α} : c ∈ inOrder cs ↔ c ∈ cs :=
  List.mem_mergeSort

theorem monotone_of_sorted {g : Grid} (positive : 0 < g.step) {cs : List (Candle α)}
    (sorted : cs.Pairwise fun a b => a.openTime.le b.openTime = true) : g.Monotone cs := by
  apply sorted.imp
  intro a b before
  rw [Instant.le_iff] at before
  apply Grid.bucket_le positive
  omega

end InOrder

section Spans

/-- The earliest and the latest second of candles. -/
structure Spans (cs : List (Candle α)) (first last : Int) : Prop where
  first_mem : ∃ c ∈ cs, c.openTime.seconds = first
  last_mem : ∃ c ∈ cs, c.openTime.seconds = last
  first_le : ∀ c ∈ cs, first ≤ c.openTime.seconds
  le_last : ∀ c ∈ cs, c.openTime.seconds ≤ last

variable {cs : List (Candle α)}

theorem Spans.unique {first last first' last' : Int} (spans : Spans cs first last)
    (other : Spans cs first' last') : first = first' ∧ last = last' := by
  obtain ⟨a, ha, rfl⟩ := spans.first_mem
  obtain ⟨b, hb, rfl⟩ := spans.last_mem
  obtain ⟨a', ha', rfl⟩ := other.first_mem
  obtain ⟨b', hb', rfl⟩ := other.last_mem
  have := spans.first_le a' ha'
  have := spans.le_last b' hb'
  have := other.first_le a ha
  have := other.le_last b hb
  omega

theorem Spans.first_le_last {first last : Int} (spans : Spans cs first last) : first ≤ last := by
  obtain ⟨c, member, rfl⟩ := spans.first_mem
  exact spans.le_last c member

theorem spans_of_sorted {first : Candle α} {rest : List (Candle α)}
    (sorted : (first :: rest).Pairwise fun a b => a.openTime.le b.openTime = true) :
    Spans (first :: rest) first.openTime.seconds
      (rest.getLast?.getD first).openTime.seconds := by
  have seconds : (first :: rest).Pairwise fun a b => a.openTime.seconds ≤ b.openTime.seconds := by
    apply sorted.imp
    intro a b before
    rw [Instant.le_iff] at before
    omega
  have : Std.Refl fun a b : Candle α => a.openTime.seconds ≤ b.openTime.seconds :=
    ⟨fun _ => Int.le_refl _⟩
  have last : (first :: rest).getLast (List.cons_ne_nil _ _) = rest.getLast?.getD first := by
    rw [List.getLast_eq_getLastD, List.getLastD_eq_getLast?]
  rw [← last]
  exact ⟨⟨first, List.mem_cons_self, rfl⟩, ⟨_, List.getLast_mem _, rfl⟩,
    fun _ member => seconds.rel_head member, fun _ member => seconds.rel_getLast member⟩

theorem Spans.of_mem {ds : List (Candle α)} {first last : Int} (spans : Spans ds first last)
    (same : ∀ c, c ∈ ds ↔ c ∈ cs) : Spans cs first last := by
  obtain ⟨first_mem, last_mem, first_le, le_last⟩ := spans
  simp only [same] at first_mem last_mem first_le le_last
  exact ⟨first_mem, last_mem, first_le, le_last⟩

theorem Spans.covers {step first last : Int} (spans : Spans cs first last) (positive : 0 < step) :
    (Grid.covering step first last).Covers cs where
  low c member := Grid.bucket_le positive (spans.first_le c member)
  high c member := by
    have count := Grid.count_eq positive spans.first_le_last
    have before : (Grid.covering step first last).bucket c.openTime.seconds ≤
        (Grid.covering step first last).bucket last :=
      Grid.bucket_le positive (spans.le_last c member)
    omega

theorem Spans.representable {first last : Int} (spans : Spans cs first last)
    (representable : ∀ c ∈ cs, c.openTime.Representable) :
    Instant.firstSecond ≤ first ∧ last ≤ Instant.lastSecond := by
  obtain ⟨a, ha, rfl⟩ := spans.first_mem
  obtain ⟨b, hb, rfl⟩ := spans.last_mem
  exact ⟨(representable a ha).1, (representable b hb).2⟩

theorem exists_spans (nonempty : cs ≠ []) : ∃ first last, Spans cs first last := by
  have sorted := (stableOrder_inOrder cs).sorted
  have same (c : Candle α) : c ∈ inOrder cs ↔ c ∈ cs := mem_inOrder
  cases ordered : inOrder cs with
  | nil =>
    have count := (stableOrder_inOrder cs).perm.length_eq
    rw [ordered] at count
    exact absurd (List.length_eq_zero_iff.mp count.symm) nonempty
  | cons first rest =>
    rw [ordered] at sorted same
    exact ⟨_, _, (spans_of_sorted sorted).of_mem same⟩

end Spans

section Resample
open Grid

theorem firstSecond_le_midnight {second : Int} (after : Instant.firstSecond ≤ second) :
    Instant.firstSecond ≤ midnight second := by
  unfold midnight Instant.firstSecond at *
  omega

theorem Grid.starts_eq {g : Grid}
    (covered : ∀ i < g.count, Instant.firstSecond ≤ g.start i ∧ g.start i ≤ Instant.lastSecond) :
    g.starts = .ok ((List.range g.count).map fun i => ⟨g.start i, 0⟩) := by
  apply mapM_ok
  intro i hi
  rw [Instant.ofSeconds?, if_pos (covered i (List.mem_range.mp hi))]

theorem Grid.eq_of_starts {g : Grid} {ts : List Instant} (made : g.starts = .ok ts) :
    ts = (List.range g.count).map fun i => ⟨g.start i, 0⟩ := by
  apply eq_map_of_mapM _ made
  intro i t given
  unfold Instant.ofSeconds? at given
  split at given
  · next found =>
    obtain ⟨-, same⟩ := Option.ite_none_right_eq_some.mp found
    cases given
    exact (Option.some.inj same).symm
  · contradiction

variable [Scalar α]

/-- The candle of a bucket. -/
def bar (g : Grid) (cs : List (Candle α)) (i : Nat) : Candle α :=
  summary ⟨g.start i, 0⟩ (g.part i (inOrder cs))

@[simp] theorem openTime_bar (g : Grid) (cs : List (Candle α)) (i : Nat) :
    (bar g cs i).openTime = ⟨g.start i, 0⟩ := openTime_summary _ _

def resampled (g : Grid) (cs : List (Candle α)) : List (Candle α) :=
  (List.range g.count).map (bar g cs)

theorem length_resampled (g : Grid) (cs : List (Candle α)) :
    (resampled g cs).length = g.count := by
  rw [resampled, List.length_map, List.length_range]

theorem map_resampled {β : Type} (f : Candle α → β) (g : Grid) (cs : List (Candle α)) :
    (resampled g cs).map f = (List.range g.count).map fun i => f (bar g cs i) := List.map_map

theorem mem_resampled {g : Grid} {cs : List (Candle α)} {c : Candle α} :
    c ∈ resampled g cs ↔ ∃ i < g.count, bar g cs i = c := by
  simp [resampled]

theorem getElem?_resampled {g : Grid} {cs : List (Candle α)} {i : Nat} {c : Candle α}
    (found : (resampled g cs)[i]? = some c) : c = bar g cs i := by
  rw [resampled, List.getElem?_map, Option.map_eq_some_iff] at found
  obtain ⟨j, at_j, rfl⟩ := found
  obtain ⟨within, rfl⟩ := List.getElem?_eq_some_iff.mp at_j
  rw [List.getElem_range]

variable {text : String} {interval : Interval} (read : Interval.read text = .ok interval)
include read

theorem resample_nil : resample ([] : List (Candle α)) text = .ok [] := by
  simp [resample, read, inOrder, bind, Except.bind, pure, Except.pure]

/-- The buckets of a resample are those of the grid, if the calendar has their starts. -/
theorem resample_eq_starts {cs : List (Candle α)} {first last : Int} (spans : Spans cs first last) :
    resample cs text = (Grid.covering interval.seconds first last).starts.map fun _ =>
      resampled (Grid.covering interval.seconds first last) cs := by
  have positive := interval.positive
  have sorted := (stableOrder_inOrder cs).sorted
  have same (c : Candle α) : c ∈ inOrder cs ↔ c ∈ cs := mem_inOrder
  unfold resample resampled bar
  rw [read]
  cases ordered : inOrder cs with
  | nil =>
    obtain ⟨c, member, -⟩ := spans.first_mem
    rw [← same, ordered] at member
    contradiction
  | cons c rest =>
    rw [ordered] at sorted same
    have mono : (covering interval.seconds first last).Monotone (c :: rest) :=
      monotone_of_sorted positive sorted
    have covers := (spans.of_mem fun d => (same d).symm).covers positive
    obtain ⟨rfl, rfl⟩ := ((spans_of_sorted sorted).of_mem same).unique spans
    simp only [bind, Except.bind, pure, Except.pure, cut_eq mono covers.low]
    cases starts : (covering interval.seconds c.openTime.seconds
        (rest.getLast?.getD c).openTime.seconds).starts with
    | error fault => rfl
    | ok ts =>
      obtain rfl := eq_of_starts starts
      dsimp only
      rw [List.zipWith_map, List.zipWith_self]
      rfl

theorem resample_eq {cs : List (Candle α)} {first last : Int} (spans : Spans cs first last)
    (after : Instant.firstSecond ≤ first) (before : last ≤ Instant.lastSecond) :
    resample cs text = .ok (resampled (Grid.covering interval.seconds first last) cs) := by
  have starts : (covering interval.seconds first last).starts = .ok _ := starts_eq fun i inside =>
    have bounds := start_bounds interval.positive spans.first_le_last inside
    ⟨(firstSecond_le_midnight after).trans bounds.1, bounds.2.trans before⟩
  rw [resample_eq_starts read spans, starts]
  rfl

theorem exists_resample {cs : List (Candle α)} (representable : ∀ c ∈ cs, c.openTime.Representable) :
    ∃ bars, resample cs text = .ok bars := by
  by_cases nonempty : cs ≠ []
  · obtain ⟨first, last, spans⟩ := exists_spans nonempty
    obtain ⟨after, before⟩ := spans.representable representable
    exact ⟨_, resample_eq read spans after before⟩
  · obtain rfl := not_not.mp nonempty
    exact ⟨_, resample_nil read⟩

end Resample

end Candle

end TradeBars
