import TradeBars.Proofs.Series

/-! Bars that are sent again while they grow. A series that stores them by their timestamp has one
bar for each timestamp that was new when it came: the last bar with it before a newer one came. What
comes late changes nothing, even if the bar it belongs to has been given up. -/
namespace TradeBars.Series
open Newest

variable {α : Type}

def upserts (s : Series α) (bars : List (Bar α)) : Series α :=
  bars.foldl (fun s b => (upsert s b).2) s

section Answers

/-- What a series says to a bar by the timestamp of its newest one, and what it has then. -/
structure Answers (s : Series α) (b : Bar α) (answer : Upsert α) (after : Series α) : Prop where
  stale : answer = .stale ↔ ∃ newest, s.last? = some newest ∧ b.timestamp < newest.timestamp
  replaced (previous : Bar α) : answer = .replaced previous ↔
    s.last? = some previous ∧ b.timestamp = previous.timestamp
  appended (evicted : Option (Bar α)) : answer = .appended evicted ↔
    (∀ newest, s.last? = some newest → newest.timestamp < b.timestamp) ∧
      evicted = if s.isFull then s.first? else none
  unchanged : answer = .stale → after = s
  /-- All bars but the newest one stay where they are. -/
  inPlace {previous : Bar α} : answer = .replaced previous →
    after.head = s.head ∧ after.size = s.size ∧ after.toList = s.toList.dropLast ++ [b]
  grown {evicted : Option (Bar α)} : answer = .appended evicted →
    evicted.toList ++ after.toList = s.toList ++ [b]

variable {s : Series α} {bars : List (Bar α)} (holds : s.Holds bars) (b : Bar α)
include holds

theorem evicted_eq : (s.pushBack b).1 = if s.isFull then s.first? else none := by
  rw [(pushBack_listed holds b).1, holds.first?_eq, appendListed]
  by_cases full : bars.length = s.capacity
  · rw [if_pos full, if_pos (holds.isFull_iff.mpr full)]
  · rw [if_neg full, if_neg (mt holds.isFull_iff.mp full)]

theorem answers : Answers s b (upsert s b).1 (upsert s b).2 := by
  rcases upsert_cases s b with
    ⟨newest, last, older, result⟩ | ⟨newest, last, same, result⟩ | ⟨newer, result⟩
  · constructor <;> simp [result, last] <;> omega
  · constructor
    case inPlace =>
      have held := holds.modifyLast fun _ => b
      obtain ⟨before, rfl⟩ := List.getLast?_eq_some_iff.mp (holds.last?_eq ▸ last)
      intro previous _
      refine ⟨?_, ?_, ?_⟩
      · simp [result]
      · simp [result, held.size_eq, holds.size_eq, length_modifyLast]
      · simp [result, held.toList_eq, holds.toList_eq, List.modifyLast_concat]
    all_goals simp [result, last, same]
  · constructor
    case stale | replaced =>
      simp only [result, reduceCtorEq, false_iff, not_exists, not_and]
      intro newest last
      have := newer newest last
      omega
    case appended =>
      intro evicted
      rw [result, ← evicted_eq holds b]
      constructor
      · rintro ⟨⟩
        exact ⟨newer, rfl⟩
      · rintro ⟨-, rfl⟩
        rfl
    case grown =>
      rw [result, holds.toList_eq]
      rintro _ ⟨⟩
      exact pushBack_whole holds b
    all_goals simp [result]

theorem upsert_last {b : Bar α} (last : s.last? = some b) : (upsert s b).2 = s := by
  rcases upsert_cases s b with
    ⟨newest, found, older, -⟩ | ⟨newest, -, -, result⟩ | ⟨newer, -⟩
  · obtain rfl := Option.some.inj (last.symm.trans found)
    exact absurd older (lt_irrefl _)
  · rw [result]
    exact holds.modifyLast_last last
  · exact absurd (newer b last) (lt_irrefl _)

/-- A bar that was taken in is the newest one, and finds itself there when it comes again. -/
theorem upsert_upsert : (upsert (upsert s b).2 b).2 = (upsert s b).2 := by
  rcases upsert_cases s b with ⟨_, -, -, result⟩ | ⟨newest, last, -, result⟩ | ⟨-, result⟩
  · simp [result]
  · obtain ⟨before, rfl⟩ := List.getLast?_eq_some_iff.mp (holds.last?_eq ▸ last)
    have held := holds.modifyLast fun _ => b
    rw [result]
    apply upsert_last held
    rw [held.last?_eq, List.modifyLast_concat, List.getLast?_concat]
  · have held := holds.pushBack b
    rw [result]
    apply upsert_last held
    rw [held.last?_eq, getLast?_rtake _ (Nat.zero_lt_of_lt holds.head_lt), List.getLast?_concat]

end Answers

section Stretches

/-- Bars from one with a new timestamp on, none of which is newer, and the one that is kept of them:
the last one with that timestamp. -/
structure Stretch (α : Type) where
  bars : List (Bar α)
  kept : Bar α
  first : bars.head?.map (·.timestamp) = some kept.timestamp
  le_kept : ∀ b ∈ bars, b.timestamp ≤ kept.timestamp
  last : ∃ before after, bars = before ++ kept :: after ∧ ∀ b ∈ after, b.timestamp < kept.timestamp

namespace Stretch

def single (b : Bar α) : Stretch α where
  bars := [b]
  kept := b
  first := rfl
  le_kept := by simp
  last := ⟨[], [], rfl, nofun⟩

variable (s : Stretch α) (b : Bar α)

theorem head?_append (more : List (Bar α)) : (s.bars ++ more).head? = s.bars.head? := by
  have first := s.first
  cases bars : s.bars with
  | nil => simp [bars] at first
  | cons => rfl

/-- The stretch with one more bar, which has the timestamp of the first one. -/
def again (same : b.timestamp = s.kept.timestamp) : Stretch α where
  bars := s.bars ++ [b]
  kept := b
  first := by rw [head?_append, s.first, same]
  le_kept := by
    have le := s.le_kept
    simp only [List.mem_append, List.mem_singleton]
    rintro c (member | rfl)
    · exact same ▸ le c member
    · exact le_rfl
  last := ⟨s.bars, [], rfl, nofun⟩

/-- The stretch with one more bar, which comes too late. -/
def late (older : b.timestamp < s.kept.timestamp) : Stretch α where
  bars := s.bars ++ [b]
  kept := s.kept
  first := by rw [head?_append, s.first]
  le_kept := by
    have le := s.le_kept
    simp only [List.mem_append, List.mem_singleton]
    rintro c (member | rfl)
    · exact le c member
    · exact older.le
  last := by
    obtain ⟨before, after, bars, late⟩ := s.last
    refine ⟨before, after ++ [b], by simp [bars], ?_⟩
    simp only [List.mem_append, List.mem_singleton]
    rintro c (member | rfl)
    · exact late c member
    · exact older

end Stretch

/-- Bars in stretches, each of which begins with a bar that is newer than all before it. -/
structure Klines (bars : List (Bar α)) (stretches : List (Stretch α)) : Prop where
  parts : bars = stretches.flatMap (·.bars)
  newer : stretches.Pairwise fun earlier later =>
    ∀ b ∈ earlier.bars, b.timestamp < later.kept.timestamp

theorem Stretch.kept_mem (s : Stretch α) : s.kept ∈ s.bars := by
  obtain ⟨before, after, bars, -⟩ := s.last
  simp [bars]

namespace Klines

variable {bars : List (Bar α)} {stretches : List (Stretch α)} {b : Bar α}

theorem nil : Klines ([] : List (Bar α)) [] := ⟨rfl, .nil⟩

theorem pairwise_kept (klines : Klines bars stretches) :
    (stretches.map (·.kept)).Pairwise (·.timestamp < ·.timestamp) := by
  rw [List.pairwise_map]
  exact klines.newer.imp fun {earlier _} newer => newer _ earlier.kept_mem

/-- Nothing is newer than the last bar that is kept. -/
theorem le_kept {s : Stretch α} (klines : Klines bars (stretches ++ [s])) :
    ∀ b ∈ bars, b.timestamp ≤ s.kept.timestamp := by
  intro b member
  rw [klines.parts, List.flatMap_append, List.flatMap_singleton, List.mem_append] at member
  rcases member with member | member
  · obtain ⟨earlier, inside, member⟩ := List.mem_flatMap.mp member
    obtain ⟨-, -, newer⟩ := List.pairwise_append.mp klines.newer
    exact (newer earlier inside s List.mem_cons_self b member).le
  · exact s.le_kept b member

theorem next (klines : Klines bars stretches) (newest : ∀ c ∈ bars, c.timestamp < b.timestamp) :
    Klines (bars ++ [b]) (stretches ++ [.single b]) where
  parts := by simp [klines.parts, Stretch.single]
  newer := by
    refine List.pairwise_append.mpr ⟨klines.newer, List.pairwise_singleton _ _, ?_⟩
    simp only [List.mem_singleton, forall_eq]
    intro earlier inside c member
    exact newest c (klines.parts ▸ List.mem_flatMap.mpr ⟨earlier, inside, member⟩)

theorem extend {s s' : Stretch α} (klines : Klines bars (stretches ++ [s]))
    (grown : s'.bars = s.bars ++ [b]) (same : s'.kept.timestamp = s.kept.timestamp) :
    Klines (bars ++ [b]) (stretches ++ [s']) where
  parts := by simp [klines.parts, grown]
  newer := by
    obtain ⟨before, -, newer⟩ := List.pairwise_append.mp klines.newer
    refine List.pairwise_append.mpr ⟨before, List.pairwise_singleton _ _, ?_⟩
    simpa only [List.mem_singleton, forall_eq, same] using newer

/-- One bar more goes into the last stretch or begins one, as the series takes it. -/
theorem upsert {s : Series α} (klines : Klines bars stretches)
    (holds : s.Holds ((stretches.map (·.kept)).rtake s.capacity)) (b : Bar α) :
    ∃ stretches', Klines (bars ++ [b]) stretches' ∧
      (Series.upsert s b).2.capacity = s.capacity ∧
      (Series.upsert s b).2.Holds ((stretches'.map (·.kept)).rtake s.capacity) := by
  have positive : 0 < s.capacity := Nat.zero_lt_of_lt holds.head_lt
  have last : s.last? = (stretches.getLast?).map (·.kept) := by
    rw [holds.last?_eq, getLast?_rtake _ positive, List.getLast?_map]
  have split (newest : Bar α) (found : s.last? = some newest) :
      ∃ earlier t, stretches = earlier ++ [t] ∧ t.kept = newest := by
    obtain ⟨t, inside, rfl⟩ := Option.map_eq_some_iff.mp (last ▸ found)
    obtain ⟨earlier, rfl⟩ := List.getLast?_eq_some_iff.mp inside
    exact ⟨earlier, t, rfl, rfl⟩
  rcases upsert_cases s b with
    ⟨newest, found, older, result⟩ | ⟨newest, found, same, result⟩ | ⟨newer, result⟩
  · obtain ⟨earlier, t, rfl, rfl⟩ := split newest found
    refine ⟨earlier ++ [t.late b older], klines.extend rfl rfl, ?_⟩
    rw [result]
    simpa [Stretch.late] using holds
  · obtain ⟨earlier, t, rfl, rfl⟩ := split newest found
    refine ⟨earlier ++ [t.again b same], klines.extend rfl same, ?_⟩
    have held := holds.modifyLast fun _ => b
    rw [modifyLast_rtake _ _ positive, List.map_append, List.map_singleton,
      List.modifyLast_concat] at held
    rw [result]
    simpa [Stretch.again] using held
  · refine ⟨stretches ++ [.single b], klines.next ?_, ?_⟩
    · rcases List.eq_nil_or_concat' stretches with rfl | ⟨earlier, t, rfl⟩
      · simp [klines.parts]
      · intro c member
        exact (klines.le_kept c member).trans_lt (newer t.kept (by simp [last]))
    · have held := holds.pushBack b
      rw [rtake_rtake_append] at held
      rw [result]
      simpa [Stretch.single] using held

end Klines

end Stretches

theorem upserts_concat (s : Series α) (bars : List (Bar α)) (b : Bar α) :
    upserts s (bars ++ [b]) = (upsert (upserts s bars) b).2 := by
  simp [upserts]

theorem exists_klines {capacity : Nat} (positive : 0 < capacity) (bars : List (Bar α)) :
    ∃ stretches, Klines bars stretches ∧ (upserts (.empty capacity) bars).capacity = capacity ∧
      (upserts (.empty capacity) bars).Holds ((stretches.map (·.kept)).rtake capacity) := by
  induction bars using List.reverseRecOn with
  | nil =>
    refine ⟨[], .nil, Ring.capacity_empty capacity, ?_⟩
    rw [List.map_nil, List.rtake_nil]
    exact .empty positive
  | append_singleton bars b ih =>
    obtain ⟨stretches, klines, sized, holds⟩ := ih
    obtain ⟨stretches', klines', capacity_eq, holds'⟩ := klines.upsert (by rwa [sized]) b
    rw [upserts_concat]
    rw [sized] at capacity_eq holds'
    exact ⟨stretches', klines', capacity_eq, holds'⟩

/-- Storing bars by their timestamp, in whatever order they come and however often, leaves the newest
`capacity` of the bars that are kept of them, in strict order of time. Each bar is told whether it is
too late, takes the place of the newest one or comes after it, and to come twice in a row is to come
once. -/
theorem upserts_keep_newest (capacity : Nat) (positive : 1 ≤ capacity) (allocates : Nat → Bool)
    (allocated : allocates capacity = true) (bars : List (Bar α)) :
    ∃ s : Series α, ofCapacity capacity allocates = .ok s ∧
      let after := upserts s bars
      after.Valid ∧ after.capacity = capacity ∧
      after.toList.Pairwise (·.timestamp < ·.timestamp) ∧
      (∃ stretches, Klines bars stretches ∧
        after.toList = (stretches.map (·.kept)).rtake capacity) ∧
      ∀ b, Answers after b (upsert after b).1 (upsert after b).2 ∧
        (upsert (upsert after b).2 b).2 = (upsert after b).2 := by
  obtain ⟨stretches, klines, sized, holds⟩ := exists_klines positive bars
  refine ⟨_, ofCapacity_eq positive allocated, holds.valid, sized, ?_,
    ⟨stretches, klines, holds.toList_eq⟩, ?_⟩
  · rw [holds.toList_eq]
    exact klines.pairwise_kept.sublist (rtake_suffix _ _).sublist
  · intro b
    exact ⟨answers holds b, upsert_upsert holds b⟩

/-- The second bar of time 6 takes the place of the first one, and the bar of time 5, which gave way
to the one of time 7, comes too late to be stored again. -/
theorem upserts_keep_newest_two :
    let bar (t : Int) (n : UInt32) : Bar Unit := ⟨t, (), (), (), (), (), (), n, (), ()⟩
    let bars := [bar 5 1, bar 6 1, bar 5 2, bar 6 2, bar 7 1]
    1 ≤ 2 ∧ ∃ s : Series Unit, ofCapacity 2 = .ok s ∧
      (upserts s bars).toList.map (fun b => (b.timestamp, b.tradeCount)) = [(6, 2), (7, 1)] ∧
      (upserts s bars).toList.Pairwise (·.timestamp < ·.timestamp) ∧
      (upsert (upserts s bars) (bar 5 1)).1 = .stale ∧
      (upsert (upserts s bars) (bar 5 1)).2 = upserts s bars := by
  intro bar bars
  obtain ⟨s, made, -, -, sorted, -, each⟩ := upserts_keep_newest 2 (by decide) (fun _ => true) rfl bars
  obtain rfl : .empty 2 = s := Except.ok.inj ((ofCapacity_eq (by decide) rfl).symm.trans made)
  obtain ⟨newest, last, newer⟩ := (Option.any_eq_true _ _).mp
    (show (upserts (.empty 2) bars).last?.any (5 < ·.timestamp) from by decide +kernel)
  have late := (each (bar 5 1)).1.stale.mpr ⟨newest, last, of_decide_eq_true newer⟩
  exact ⟨by decide, _, made, by decide +kernel, sorted, late, (each (bar 5 1)).1.unchanged late⟩

end TradeBars.Series
