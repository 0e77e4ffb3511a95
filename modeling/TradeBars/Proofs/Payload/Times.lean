import TradeBars.Proofs.Payload.Values
import TradeBars.Proofs.Time.Spellings

/-! The ways to write a time into a payload. Numbers count seconds or thousandths of a second, and
texts spell a date. Main statement: whichever way a second is written, it is read as this second,
also before 1970, where parts of a second count towards the past. -/
namespace TradeBars.Payload
open Time

section Written

variable {s : Int} {d : Date} (named : Gregorian (s / 86400) d) (years : 0 ≤ d.year ∧ d.year ≤ 9999)
  (nonzero : s ≠ 0) {v : Json} {field : String}
include named years nonzero

theorem timestamp_of_seconds (found : v.get? field = some (.num (.int s))) :
    timestamp v field .seconds = .ok s := by
  have bounds := named.day_bounds years
  have time : TimeOf .seconds (.num (.int s)) (s / 1) := .whole nonzero (by omega) (by omega)
  rw [timestamp_of_timeOf found time, Int.ediv_one]

/-- A part of a second never moves it to another one, whatever its sign. -/
theorem timestamp_of_milliseconds {m : Int} (part : 0 ≤ m ∧ m ≤ 999)
    (found : v.get? field = some (.num (.int (1000 * s + m)))) :
    timestamp v field .milliseconds = .ok s := by
  have bounds := named.day_bounds years
  have time : TimeOf .milliseconds (.num (.int (1000 * s + m))) ((1000 * s + m) / 1000) :=
    .whole (by omega) (by omega) (by omega)
  have whole : (1000 * s + m) / 1000 = s := by omega
  rw [timestamp_of_timeOf found time, whole]

end Written

theorem timestamp_of_spelled {s : Int} {cs before after : List Char} (spelled : Spelled s cs)
    (isBefore : ∀ c ∈ before, Text.isBlank c = true)
    (isAfter : ∀ c ∈ after, Text.isBlank c = true) {v : Json} {field : String}
    (found : v.get? field = some (.str (String.ofList (before ++ cs ++ after))))
    (unit : TimestampUnit) : timestamp v field unit = .ok s := by
  obtain ⟨nanos, read⟩ := spelled.read?
  obtain ⟨begins, ends⟩ := spelled.edges
  have trimmed : Instant.read? (Text.strip (String.ofList (before ++ cs ++ after)).toList) =
      some ⟨s, nanos⟩ := by
    rw [String.toList_ofList, Text.strip_around isBefore isAfter begins ends, read]
  exact timestamp_of_timeOf found (.date trimmed)

/-- A second of the years that have four digits is read from all that is written for it: whole
seconds, thousandths from its own on to the next one's, and each of its spellings, for which the
calendar has exactly one date in any place. -/
theorem timestamp_spellings {s : Int} (nonzero : s ≠ 0) {d : Date} (named : Gregorian (s / 86400) d)
    (years : 0 ≤ d.year ∧ d.year ≤ 9999) :
    (∀ east, ∃! e, Gregorian ((s + east) / 86400) e) ∧
      ∀ (v : Json) (field : String),
        (v.get? field = some (.num (.int s)) → timestamp v field .seconds = .ok s) ∧
        (∀ m, 0 ≤ m ∧ m ≤ 999 → v.get? field = some (.num (.int (1000 * s + m))) →
          timestamp v field .milliseconds = .ok s) ∧
        ∀ unit before cs after, Spelled s cs → (∀ c ∈ before, Text.isBlank c = true) →
          (∀ c ∈ after, Text.isBlank c = true) →
          v.get? field = some (.str (String.ofList (before ++ cs ++ after))) →
          timestamp v field unit = .ok s := by
  refine ⟨fun east => existsUnique_gregorian _, fun v field => ⟨?_, ?_, ?_⟩⟩
  · exact timestamp_of_seconds named years nonzero
  · exact fun m part => timestamp_of_milliseconds named years nonzero part
  · intro unit before cs after spelled isBefore isAfter found
    exact timestamp_of_spelled spelled isBefore isAfter found unit

/-- The last second before 1970, which at an offset lies in the year after it. -/
theorem timestamp_spellings_negative :
    let v : Json := .obj [("a", .num (.int (-1))), ("b", .str " 1969-12-31 23:59:59.9"),
      ("c", .str "1970-01-01T00:59:59+01:00\n")]
    timestamp v "a" .seconds = .ok (-1) ∧ timestamp v "a" .milliseconds = .ok (-1) ∧
      timestamp v "b" .seconds = .ok (-1) ∧ timestamp v "c" .milliseconds = .ok (-1) := by
  intro v
  have last : Gregorian (-1 / 86400) ⟨1969, 12, 31⟩ := .previous ⟨by decide, by decide⟩ .epoch
  have first : Gregorian ((-1 + (1 * 3600 + 0 * 60 : Nat)) / 86400) ⟨1970, 1, 1⟩ := .epoch
  obtain ⟨-, read⟩ := timestamp_spellings (s := -1) (by decide) last (by decide)
  have fraction : Fraction ['.', '9'] :=
    .inr ⟨['9'], ⟨List.cons_ne_nil _ _, List.forall_mem_singleton.mpr rfl⟩, rfl⟩
  have utc : Spelled (-1) _ := .naive last (by decide) (.inl rfl) fraction
  have east : Spelled (-1) _ :=
    .zoned first (by decide) (show isDateEnd 'T' = true from rfl) (.inl rfl)
      (.east (by decide) (by decide))
  have blank : ∀ c ∈ [' '], Text.isBlank c = true := List.forall_mem_singleton.mpr rfl
  have line : ∀ c ∈ ['\n'], Text.isBlank c = true := List.forall_mem_singleton.mpr rfl
  refine ⟨(read v "a").1 rfl, (read v "a").2.1 999 (by decide) rfl, ?_, ?_⟩
  · refine (read v "b").2.2 .seconds [' '] _ [] utc blank nofun ?_
    have text : [' '] ++ (dateText ⟨1969, 12, 31⟩ ++ ' ' :: clockText (-1 % 86400 : Int).toNat ++
        ['.', '9']) ++ [] = " 1969-12-31 23:59:59.9".toList := by decide +kernel
    rw [text, String.ofList_toList]
    rfl
  · refine (read v "c").2.2 .milliseconds [] _ ['\n'] east nofun line ?_
    have text : [] ++ (dateText ⟨1970, 1, 1⟩ ++
        'T' :: clockText ((-1 + (1 * 3600 + 0 * 60 : Nat)) % 86400 : Int).toNat ++
          ([] ++ ('+' :: Instant.padded 2 1 ++ ':' :: Instant.padded 2 0))) ++ ['\n'] =
        "1970-01-01T00:59:59+01:00\n".toList := by decide +kernel
    rw [text, String.ofList_toList]
    rfl

end TradeBars.Payload
