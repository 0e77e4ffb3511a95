import TradeBars.Archive
import TradeBars.Candle.Table
import TradeBars.Proofs.Candle.Resample
import TradeBars.Proofs.Time.Reader

/-! The calendar covers every time that is read, of a table of candles, of a record, or of a
resample that is read back. -/
namespace TradeBars

namespace Time

theorem representable_of_instant? {date : Date} {clock : Clock} {east : Int} {t : Instant}
    (found : instant? date clock east = some t) : t.Representable := by
  unfold instant? at found
  simp only [Option.ite_none_right_eq_some, Option.some.injEq] at found
  obtain ⟨-, covered, rfl⟩ := found
  exact covered

theorem yields_instant? (date : Date) (clock : Clock) (east : Int) :
    Yields (match instant? date clock east with | some t => return t | none => failure)
      Instant.Representable := by
  cases read : instant? date clock east with
  | none => nofun
  | some t =>
    rintro cs _ rest ⟨⟩
    exact representable_of_instant? read

theorem yields_strict : Yields strict Instant.Representable := by
  unfold strict
  iterate 14 refine .bind fun _ => ?_
  exact yields_instant? _ _ _

theorem yields_naive : Yields naive Instant.Representable := by
  unfold naive
  iterate 4 refine .bind fun _ => ?_
  exact yields_instant? _ _ _

theorem yields_midnight : Yields midnight Instant.Representable := by
  unfold midnight
  iterate 2 refine .bind fun _ => ?_
  exact yields_instant? _ _ _

theorem yields_spaced : Yields spaced Instant.Representable := by
  unfold spaced
  iterate 7 refine .bind fun _ => ?_
  exact yields_instant? _ _ _

end Time

namespace Instant

theorem representable_of_ofSeconds? {s : Int} {t : Instant} (found : ofSeconds? s = some t) :
    t.Representable := by
  unfold ofSeconds? at found
  split at found
  · next covered =>
    cases found
    exact covered
  · contradiction

theorem representable_of_read? {cs : List Char} {t : Instant} (found : read? cs = some t) :
    t.Representable := by
  obtain ⟨⟨_, rest⟩, given, rfl⟩ := Option.map_eq_some_iff.mp found
  exact Time.yields_strict.orElse (Time.yields_naive.orElse Time.yields_midnight) cs _ rest given

theorem representable_of_readZoned? {cs : List Char} {t : Instant}
    (found : readZoned? cs = some t) : t.Representable := by
  obtain ⟨⟨_, rest⟩, given, rfl⟩ := Option.map_eq_some_iff.mp found
  exact Time.yields_spaced cs _ rest given

end Instant

namespace Candle

theorem representable_of_rowTime {row : Json} {t : Instant} (read : rowTime row = .ok t) :
    t.Representable := by
  unfold rowTime at read
  split at read
  · contradiction
  · contradiction
  · split at read
    · next found =>
      cases read
      exact Instant.representable_of_read? found
    · contradiction
  · split at read
    · next found =>
      cases read
      obtain ⟨s, -, found⟩ := Option.bind_eq_some_iff.mp found
      exact Instant.representable_of_ofSeconds? found
    · contradiction

theorem representable_of_ofRow {row : Json} {c : Candle Float} (read : ofRow row = .ok c) :
    c.openTime.Representable := by
  obtain ⟨t, time, read⟩ := exists_of_bind read
  obtain ⟨_, -, read⟩ := exists_of_bind read
  obtain ⟨_, -, read⟩ := exists_of_bind read
  obtain ⟨_, -, read⟩ := exists_of_bind read
  obtain ⟨_, -, read⟩ := exists_of_bind read
  cases read
  exact representable_of_rowTime time

theorem representable_of_ofTable {rows : List Json} {cs : List (Candle Float)}
    (read : ofTable rows = .ok cs) : ∀ c ∈ cs, c.openTime.Representable := by
  obtain ⟨candles, each, read⟩ := exists_of_bind read
  have same : candles = cs := by
    split at read
    · cases read
      rfl
    · split at read
      · contradiction
      · cases read
        rfl
  intro c member
  obtain ⟨row, -, read⟩ := exists_of_mem_mapM each (same ▸ member)
  exact representable_of_ofRow read

theorem representable_of_ofJson? {v : Json} {c : Candle Float} (read : ofJson? v = some c) :
    c.openTime.Representable := by
  obtain ⟨fields, -, read⟩ := Option.bind_eq_some_iff.mp read
  split at read
  · obtain ⟨t, time, read⟩ := Option.bind_eq_some_iff.mp read
    obtain ⟨_, -, read⟩ := Option.bind_eq_some_iff.mp read
    obtain ⟨_, -, read⟩ := Option.bind_eq_some_iff.mp read
    obtain ⟨_, -, read⟩ := Option.bind_eq_some_iff.mp read
    obtain ⟨_, -, read⟩ := Option.bind_eq_some_iff.mp read
    obtain ⟨_, -, read⟩ := Option.bind_eq_some_iff.mp read
    cases read
    obtain ⟨field, -, time⟩ := Option.bind_eq_some_iff.mp time
    obtain ⟨text, -, time⟩ := Option.bind_eq_some_iff.mp time
    exact Instant.representable_of_readZoned? time
  · contradiction

theorem representable_of_resample {α : Type} [Scalar α] {cs bars : List (Candle α)} {text : String}
    (made : resample cs text = .ok bars) : ∀ bar ∈ bars, bar.openTime.Representable := by
  obtain ⟨interval, -, made⟩ := exists_of_bind made
  split at made
  · cases made
    nofun
  · obtain ⟨starts, each, made⟩ := exists_of_bind made
    cases made
    intro bar member
    obtain ⟨i, inside, rfl⟩ := List.mem_iff_getElem.mp member
    rw [List.getElem_zipWith, openTime_summary]
    obtain ⟨_, -, start⟩ := exists_of_mem_mapM each (List.getElem_mem _)
    split at start
    · next found =>
      cases start
      exact Instant.representable_of_ofSeconds? found
    · contradiction

end Candle

end TradeBars
