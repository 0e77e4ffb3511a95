import TradeBars.Proofs.Ring
import TradeBars.Series

/-! A bounded series against a list of at most `capacity` bars, oldest first. Every
sequence of changes, from any position of the ring, hands back what the same changes of
the list hand back and leaves the bars that they leave. -/
namespace TradeBars.Series
open Newest

variable {α : Type}

inductive Change (α : Type) where
  | pushBack (b : Bar α)
  | pushFront (b : Bar α)
  | upsert (b : Bar α)
  /-- Any change of the newest bar in its place. -/
  | modifyLast (f : Bar α → Bar α)
  | clear

/-- What a change hands back. -/
inductive Reply (α : Type) where
  | evicted (bar : Option (Bar α))
  /-- The bar that found no room, if it did not go in. -/
  | refused (bar : Option (Bar α))
  | upserted (result : Upsert α)
  /-- The newest bar as it was before its change. -/
  | newest (bar : Option (Bar α))
  | done

def change (s : Series α) : Change α → Reply α × Series α
  | .pushBack b => ((.evicted (s.pushBack b).1), (s.pushBack b).2)
  | .pushFront b =>
    match s.pushFront? b with
    | some s => (.refused none, s)
    | none => (.refused (some b), s)
  | .upsert b => (.upserted (upsert s b).1, (upsert s b).2)
  | .modifyLast f => (.newest s.last?, s.modifyLast f)
  | .clear => (.done, s.clear)

/-- Appends a bar to a list; a list that is full gives up its first one. -/
def appendListed (capacity : Nat) (bars : List (Bar α)) (b : Bar α) :
    Option (Bar α) × List (Bar α) :=
  if bars.length = capacity then (bars.head?, bars.tail ++ [b]) else (none, bars ++ [b])

def upsertListed (capacity : Nat) (bars : List (Bar α)) (b : Bar α) : Upsert α × List (Bar α) :=
  match bars.getLast? with
  | none => (.appended (appendListed capacity bars b).1, (appendListed capacity bars b).2)
  | some newest =>
    if newest.timestamp < b.timestamp then
      (.appended (appendListed capacity bars b).1, (appendListed capacity bars b).2)
    else if b.timestamp = newest.timestamp then (.replaced newest, bars.dropLast ++ [b])
    else (.stale, bars)

def changeListed (capacity : Nat) (bars : List (Bar α)) : Change α → Reply α × List (Bar α)
  | .pushBack b =>
    (.evicted (appendListed capacity bars b).1, (appendListed capacity bars b).2)
  | .pushFront b =>
    if bars.length = capacity then (.refused (some b), bars) else (.refused none, b :: bars)
  | .upsert b => (.upserted (upsertListed capacity bars b).1, (upsertListed capacity bars b).2)
  | .modifyLast f => (.newest bars.getLast?, bars.modifyLast f)
  | .clear => (.done, [])

/-- All replies and the last state of a sequence of changes. -/
def changes {σ : Type} (step : σ → Change α → Reply α × σ) : σ → List (Change α) →
    List (Reply α) × σ
  | s, [] => ([], s)
  | s, c :: rest =>
    ((step s c).1 :: (changes step (step s c).2 rest).1, (changes step (step s c).2 rest).2)

/-- The three ways of a bar into a series, or past it. -/
theorem upsert_cases (s : Series α) (b : Bar α) :
    (∃ newest, s.last? = some newest ∧ b.timestamp < newest.timestamp ∧
      upsert s b = (.stale, s)) ∨
    (∃ newest, s.last? = some newest ∧ b.timestamp = newest.timestamp ∧
      upsert s b = (.replaced newest, s.modifyLast fun _ => b)) ∨
    ((∀ newest, s.last? = some newest → newest.timestamp < b.timestamp) ∧
      upsert s b = (.appended (s.pushBack b).1, (s.pushBack b).2)) := by
  unfold upsert
  cases last : s.last? with
  | none => exact .inr (.inr ⟨nofun, rfl⟩)
  | some newest =>
    simp only [Option.some.injEq, forall_eq', exists_eq_left']
    rcases lt_trichotomy b.timestamp newest.timestamp with older | same | newer
    · exact .inl ⟨older, by rw [if_neg older.not_gt, if_neg older.ne]⟩
    · exact .inr (.inl ⟨same, by rw [if_neg same.not_gt, if_pos same]⟩)
    · exact .inr (.inr ⟨newer, by rw [if_pos newer]⟩)

section Step

variable {s : Series α} {bars : List (Bar α)}

theorem pushBack_listed (holds : s.Holds bars) (b : Bar α) :
    (s.pushBack b).1 = (appendListed s.capacity bars b).1 ∧
      (s.pushBack b).2.Holds (appendListed s.capacity bars b).2 := by
  unfold appendListed
  split
  · next full => exact holds.pushBack_of_full full b
  · next notFull => exact holds.pushBack_of_lt (lt_of_le_of_ne holds.length_le notFull) b

/-- No bar goes missing but the one that is handed back. -/
theorem pushBack_whole (holds : s.Holds bars) (b : Bar α) :
    (s.pushBack b).1.toList ++ (s.pushBack b).2.toList = bars ++ [b] := by
  obtain ⟨evicted, held⟩ := pushBack_listed holds b
  rw [evicted, held.toList_eq]
  unfold appendListed
  split
  · cases bars <;> simp
  · simp

theorem upsert_listed (holds : s.Holds bars) (b : Bar α) :
    (upsert s b).1 = (upsertListed s.capacity bars b).1 ∧
      (upsert s b).2.Holds (upsertListed s.capacity bars b).2 ∧
      (upsert s b).2.capacity = s.capacity := by
  have last := holds.last?_eq
  rcases upsert_cases s b with
    ⟨newest, found, older, result⟩ | ⟨newest, found, same, result⟩ | ⟨newer, result⟩
  · have listed : upsertListed s.capacity bars b = (.stale, bars) := by
      simp [upsertListed, ← last, found, older.not_gt, older.ne]
    rw [result, listed]
    exact ⟨rfl, holds, rfl⟩
  · obtain ⟨before, rfl⟩ := List.getLast?_eq_some_iff.mp (last ▸ found)
    have listed : upsertListed s.capacity (before ++ [newest]) b =
        (.replaced newest, before ++ [b]) := by simp [upsertListed, same]
    have held := holds.modifyLast fun _ => b
    rw [List.modifyLast_concat] at held
    rw [result, listed]
    exact ⟨rfl, held, s.capacity_modifyLast _⟩
  · have listed : upsertListed s.capacity bars b =
        (.appended (appendListed s.capacity bars b).1, (appendListed s.capacity bars b).2) := by
      unfold upsertListed
      rw [← last]
      cases found : s.last? with
      | none => rfl
      | some newest => exact if_pos (newer newest found)
    obtain ⟨evicted, pushed⟩ := pushBack_listed holds b
    rw [result, listed, evicted]
    exact ⟨rfl, pushed, s.capacity_pushBack b⟩

theorem change_listed (holds : s.Holds bars) (c : Change α) :
    (s.change c).1 = (changeListed s.capacity bars c).1 ∧
      (s.change c).2.Holds (changeListed s.capacity bars c).2 ∧
      (s.change c).2.capacity = s.capacity := by
  cases c with
  | pushBack b =>
    obtain ⟨evicted, pushed⟩ := pushBack_listed holds b
    exact ⟨congrArg _ evicted, pushed, s.capacity_pushBack b⟩
  | pushFront b =>
    obtain full | room := holds.length_le.eq_or_lt
    · simp only [change, changeListed, holds.pushFront?_of_full full, if_pos full]
      exact ⟨trivial, holds, trivial⟩
    · obtain ⟨after, pushed, capacity, held⟩ := holds.pushFront?_of_lt room b
      simp only [change, changeListed, pushed, if_neg room.ne]
      exact ⟨trivial, held, capacity⟩
  | upsert b =>
    obtain ⟨result, upserted, capacity⟩ := upsert_listed holds b
    exact ⟨congrArg _ result, upserted, capacity⟩
  | modifyLast f =>
    exact ⟨congrArg _ holds.last?_eq, holds.modifyLast f, s.capacity_modifyLast f⟩
  | clear => exact ⟨rfl, holds.clear, Ring.capacity_empty _⟩

end Step

theorem changes_listed {s : Series α} {bars : List (Bar α)} (holds : s.Holds bars)
    (cs : List (Change α)) :
    (changes change s cs).1 = (changes (changeListed s.capacity) bars cs).1 ∧
      (changes change s cs).2.Holds (changes (changeListed s.capacity) bars cs).2 ∧
      (changes change s cs).2.capacity = s.capacity := by
  induction cs generalizing s bars with
  | nil => exact ⟨rfl, holds, rfl⟩
  | cons c rest ih =>
    obtain ⟨reply, held, capacity⟩ := change_listed holds c
    obtain ⟨replies, heldAll, capacityAll⟩ := ih held
    rw [capacity] at replies heldAll capacityAll
    exact ⟨congrArg₂ List.cons reply replies, heldAll, capacityAll⟩

theorem ofCapacity_eq {capacity : Nat} {allocates : Nat → Bool} (positive : 0 < capacity)
    (allocated : allocates capacity = true) :
    ofCapacity capacity allocates = .ok (Ring.empty capacity : Series α) :=
  (if_neg positive.ne').trans (if_pos allocated)

/-- The series is its list: a new one, if its slots can be allocated, is empty, and any changes of
a well-formed one, in any position of the ring, hand back and leave what they do for the list of its
bars. The result is well-formed, so that every slot it goes to, at either end too, is one it has. -/
theorem changes_refine_list (capacity : Nat) (positive : 0 < capacity) :
    (∀ allocates : Nat → Bool, allocates capacity = true →
      ∃ s : Series α, ofCapacity capacity allocates = .ok s ∧ s.Valid ∧ s.capacity = capacity ∧
        s.toList = []) ∧
    ∀ s : Series α, s.Valid → s.capacity = capacity → ∀ cs : List (Change α),
      let after := (changes change s cs).2
      after.Valid ∧ after.capacity = capacity ∧
      changes (changeListed capacity) s.toList cs = ((changes change s cs).1, after.toList) ∧
      (∀ i, after.get? i = after.toList[i]? ∧ ((after.get? i).isSome ↔ i < after.size)) ∧
      (∀ i, after.slot i < after.slots.size) ∧
      (after.head + after.capacity - 1) % after.capacity < after.slots.size := by
  constructor
  · intro allocates allocated
    have holds : (Ring.empty capacity : Series α).Holds [] := .empty positive
    exact ⟨_, ofCapacity_eq positive allocated, holds.valid, Ring.capacity_empty capacity,
      holds.toList_eq⟩
  intro s valid sized cs
  subst sized
  obtain ⟨replies, held, capacity⟩ := changes_listed valid.holds cs
  have head_lt := held.head_lt
  refine ⟨held.valid, capacity, ?_, ?_, fun i => Ring.slot_lt head_lt i, ?_⟩
  · rw [held.toList_eq, replies]
  · intro i
    rw [held.get?_eq, held.toList_eq, held.size_eq, isSome_getElem?]
    exact ⟨rfl, Iff.rfl⟩
  · exact Nat.mod_lt _ (Nat.zero_lt_of_lt head_lt)

/-- Two bars around the end of three slots take one more at each end in turn. -/
theorem changes_refine_list_around_the_end :
    let bar (t : Int) : Bar Unit := ⟨t, (), (), (), (), (), (), 1, (), ()⟩
    let s : Series Unit := ⟨#[some (bar 6), none, some (bar 5)], 2, 2⟩
    let cs := [.pushFront (bar 4), .pushFront (bar 3), .upsert (bar 5), .upsert (bar 7)]
    0 < 3 ∧ s.Valid ∧ s.capacity = 3 ∧
      (changes change s cs).1 = [.refused none, .refused (some (bar 3)), .upserted .stale,
        .upserted (.appended (some (bar 4)))] ∧
      (changes change s cs).2.toList = [bar 5, bar 6, bar 7] := by
  intro bar s cs
  have holds : s.Holds [bar 5, bar 6] := by
    refine ⟨by decide, rfl, by decide, ?_⟩
    intro i hi
    match i, hi with
    | 0, _ | 1, _ | 2, _ => simp [Ring.slot, Ring.capacity, s]
  obtain ⟨-, -, refined, -⟩ := (changes_refine_list 3 (by decide)).2 s holds.valid rfl cs
  have listed : changes (changeListed 3) [bar 5, bar 6] cs =
      ([.refused none, .refused (some (bar 3)), .upserted .stale,
        .upserted (.appended (some (bar 4)))], [bar 5, bar 6, bar 7]) := rfl
  rw [holds.toList_eq, listed, Prod.mk.injEq] at refined
  exact ⟨by decide, holds.valid, rfl, refined.1.symm, refined.2.symm⟩

end TradeBars.Series
