import TradeBars.Candle.Table
import TradeBars.Proofs.Outcomes
import TradeBars.Proofs.Payload.Values

/-! What a table of candles comes to: a candle for each row, or the fault of the first row that has
one, or else the first column that no row has. Main statement: reading a table is just this, and a
table is read exactly if its rows have times and numbers, and all its columns some key. -/
namespace TradeBars

namespace Json

/-- The keys of an object. No other value has any. -/
inductive HasKey (key : String) : Json → Prop where
  | member {members : List (String × Json)} {value : Json} :
      (key, value) ∈ members → HasKey key (.obj members)

theorem hasKey_iff {v : Json} {key : String} : v.HasKey key ↔ (v.get? key).isSome = true := by
  constructor
  · rintro ⟨member⟩
    exact List.lookup_isSome_iff.mpr ⟨_, List.mem_reverse.mpr member, beq_self_eq_true key⟩
  · intro found
    cases v with
    | obj members =>
      obtain ⟨⟨key', value⟩, member, same⟩ := List.lookup_isSome_iff.mp found
      obtain rfl := eq_of_beq same
      exact .member (List.mem_reverse.mp member)
    | null | bool | num | str | arr | unpaired => contradiction

end Json

namespace Candle

section Judgements

/-- The time that a value stands for: text is a date between blanks, and a number whole seconds
that the calendar covers. -/
inductive TimeOf : Json → Instant → Prop where
  | date {s : String} {t : Instant} : Instant.read? (Text.strip s.toList) = some t →
      TimeOf (.str s) t
  | seconds {n : Int} : Instant.firstSecond ≤ n → n ≤ Instant.lastSecond →
      TimeOf (.num (.int n)) ⟨n, 0⟩

/-- How the time of a row is judged. -/
inductive TimeJudged (row : Json) : Except Fault Instant → Prop where
  | nothing : row.get? timeColumn = none ∨ row.get? timeColumn = some .null →
      TimeJudged row (.error (.rejected (.missingField timeColumn)))
  | read {v : Json} {t : Instant} : row.get? timeColumn = some v → TimeOf v t →
      TimeJudged row (.ok t)
  | wrong {v : Json} : row.get? timeColumn = some v → v ≠ .null → (∀ t, ¬ TimeOf v t) →
      TimeJudged row (.error (.rejected (.unparseable timeColumn v.text)))

/-- How the value of a row in a column of prices is judged. -/
inductive PriceJudged (row : Json) (column : String) : Except Fault (Option Float) → Prop where
  | nothing : row.get? column = none ∨ row.get? column = some .null →
      PriceJudged row column (.ok none)
  | read {n : Json.Number} : row.get? column = some (.num n) →
      PriceJudged row column (.ok (some n.toFloat))
  | wrong {v : Json} : row.get? column = some v → v ≠ .null → (∀ n, v ≠ .num n) →
      PriceJudged row column (.error (.columns (.nonNumeric column v.text)))

inductive VolumeOf (row : Json) : Option Float → Prop where
  | read {n : Json.Number} : row.get? "volume" = some (.num n) → VolumeOf row (some n.toFloat)
  | nothing : (∀ n, row.get? "volume" ≠ some (.num n)) → VolumeOf row none

/-- The candle that a row describes. -/
structure Describes (row : Json) (c : Candle Float) : Prop where
  openTime : TimeJudged row (.ok c.openTime)
  openPrice : PriceJudged row "open" (.ok c.openPrice)
  high : PriceJudged row "high" (.ok c.high)
  low : PriceJudged row "low" (.ok c.low)
  close : PriceJudged row "close" (.ok c.close)
  volume : VolumeOf row c.volume

/-- The fault of a row: the one of its time, or else of its first column that has one. -/
inductive Offends (row : Json) : Fault → Prop where
  | time {fault : Fault} : TimeJudged row (.error fault) → Offends row fault
  | price {t : Instant} {before after : List String} {column : String} {fault : Fault} :
      TimeJudged row (.ok t) → priceColumns = before ++ column :: after →
      (∀ earlier ∈ before, ∃ p, PriceJudged row earlier (.ok p)) →
      PriceJudged row column (.error fault) → Offends row fault

/-- How the columns of a table are judged whose rows have been read. -/
inductive ColumnsJudged (rows : List Json) (candles : List (Candle Float)) :
    Except Fault (List (Candle Float)) → Prop where
  | empty : rows = [] → ColumnsJudged rows candles (.ok candles)
  | all : (∀ column ∈ priceColumns, ∃ row ∈ rows, row.HasKey column) →
      ColumnsJudged rows candles (.ok candles)
  | missing {before after : List String} {column : String} :
      rows ≠ [] → priceColumns = before ++ column :: after →
      (∀ earlier ∈ before, ∃ row ∈ rows, row.HasKey earlier) →
      (∀ row ∈ rows, ¬ row.HasKey column) →
      ColumnsJudged rows candles (.error (.columns (.missing column)))

/-- The candles that the rows describe, or the first fault; the columns come after all rows. -/
def TableJudged (rows : List Json) : Except Fault (List (Candle Float)) → Prop :=
  Then (Each Describes Offends rows) (ColumnsJudged rows)

/-- A row that has a time, and numbers and null at most as its prices. -/
structure Numeric (row : Json) : Prop where
  time : ∃ v t, row.get? timeColumn = some v ∧ TimeOf v t
  prices : ∀ column ∈ priceColumns, ∀ v, row.get? column = some v → v = .null ∨ ∃ n, v = .num n

end Judgements

section Rows

variable {row : Json}

theorem seconds_iff {v : Json} {t : Instant} (noText : ∀ s, v ≠ .str s) :
    v.int64?.bind Instant.ofSeconds? = some t ↔ TimeOf v t := by
  have covered (n : Int) : Instant.ofSeconds? n = some t ↔
      (Instant.firstSecond ≤ n ∧ n ≤ Instant.lastSecond) ∧ ⟨n, 0⟩ = t := by
    rw [Instant.ofSeconds?, Option.ite_none_right_eq_some, Option.some.injEq]
  rw [Option.bind_eq_some_iff]
  constructor
  · rintro ⟨n, isInt, read⟩
    obtain ⟨range, rfl⟩ := (covered n).mp read
    cases v with
    | num m =>
      obtain ⟨rfl, -⟩ := Payload.int64?_eq_some_iff.mp isInt
      exact .seconds range.1 range.2
    | null | bool | str | arr | obj | unpaired => contradiction
  · intro time
    cases time with
    | date => exact absurd rfl (noText _)
    | @seconds n low high =>
      have isInt := Payload.int64?_eq_some_iff (n := .int n) (i := n)
      unfold Instant.firstSecond at low
      unfold Instant.lastSecond at high
      exact ⟨n, isInt.mpr ⟨rfl, by omega, by omega⟩, (covered n).mpr ⟨⟨low, high⟩, rfl⟩⟩

theorem rowTime_of_timeOf {v : Json} {t : Instant} (found : row.get? timeColumn = some v)
    (time : TimeOf v t) : rowTime row = .ok t := by
  cases v with
  | str s =>
    obtain @⟨_, _, date⟩ := time
    simp only [rowTime, found, date]
  | null => contradiction
  | bool | arr | obj | unpaired => contradiction
  | num n =>
    have seconds := (seconds_iff (by simp)).mpr time
    simp only [rowTime, found, seconds]

theorem rowTime_of_wrong {v : Json} (found : row.get? timeColumn = some v) (notNull : v ≠ .null)
    (noTime : ∀ t, ¬ TimeOf v t) :
    rowTime row = .error (.rejected (.unparseable timeColumn v.text)) := by
  cases v with
  | null => contradiction
  | str s =>
    have unread : Instant.read? (Text.strip s.toList) = none := by
      rw [Option.eq_none_iff_forall_ne_some]
      exact fun t date => noTime t (.date date)
    simp only [rowTime, found, unread]
  | num | bool | arr | obj | unpaired =>
    have unread : (_ : Option Instant) = none :=
      Option.eq_none_iff_forall_ne_some.mpr fun t time => noTime t ((seconds_iff (by simp)).mp time)
    simp only [rowTime, found, unread]

theorem rowTime_eq_iff (row : Json) (r : Except Fault Instant) :
    rowTime row = r ↔ TimeJudged row r := by
  constructor
  · rintro rfl
    by_cases noTime : row.get? timeColumn = none ∨ row.get? timeColumn = some .null
    · have fault : rowTime row = .error (.rejected (.missingField timeColumn)) := by
        rcases noTime with found | found <;> simp only [rowTime, found]
      exact fault ▸ .nothing noTime
    · obtain ⟨present, notNull⟩ := not_or.mp noTime
      obtain ⟨v, found⟩ := Option.ne_none_iff_exists'.mp present
      by_cases readable : ∃ t, TimeOf v t
      · obtain ⟨t, time⟩ := readable
        exact rowTime_of_timeOf found time ▸ .read found time
      · have notNull : v ≠ .null := fun null => notNull (null ▸ found)
        have wrong := not_exists.mp readable
        exact rowTime_of_wrong found notNull wrong ▸ .wrong found notNull wrong
  · intro judged
    cases judged with
    | nothing noTime => rcases noTime with found | found <;> simp only [rowTime, found]
    | read found time => exact rowTime_of_timeOf found time
    | wrong found notNull wrong => exact rowTime_of_wrong found notNull wrong

theorem rowPrice_eq_iff (row : Json) (column : String) (r : Except Fault (Option Float)) :
    rowPrice row column = r ↔ PriceJudged row column r := by
  constructor
  · rintro rfl
    unfold rowPrice
    split
    · next found => exact .nothing (.inl found)
    · next found => exact .nothing (.inr found)
    · next n found => exact .read found
    · next v notNull notNumber found =>
      exact .wrong found notNull notNumber
  · intro judged
    cases judged with
    | nothing noPrice => rcases noPrice with found | found <;> simp only [rowPrice, found]
    | read found => simp only [rowPrice, found]
    | @wrong v found notNull notNumber =>
      cases v with
      | null => contradiction
      | num n => exact absurd rfl (notNumber n)
      | bool | str | arr | obj | unpaired => simp only [rowPrice, found]

theorem rowVolume_eq_iff (row : Json) (volume : Option Float) :
    rowVolume row = volume ↔ VolumeOf row volume := by
  constructor
  · rintro rfl
    unfold rowVolume
    split
    · next n found => exact .read found
    · next notNumber => exact .nothing notNumber
  · intro stands
    cases stands with
    | read found => simp only [rowVolume, found]
    | nothing notNumber =>
      unfold rowVolume
      split
      · next n found => exact absurd found (notNumber n)
      · rfl

theorem ofRow_eq_ok_iff (row : Json) (c : Candle Float) : ofRow row = .ok c ↔ Describes row c := by
  constructor
  · intro read
    obtain ⟨t, time, read⟩ := exists_of_bind read
    obtain ⟨openPrice, isOpen, read⟩ := exists_of_bind read
    obtain ⟨high, isHigh, read⟩ := exists_of_bind read
    obtain ⟨low, isLow, read⟩ := exists_of_bind read
    obtain ⟨close, isClose, read⟩ := exists_of_bind read
    cases read
    rw [rowTime_eq_iff] at time
    rw [rowPrice_eq_iff] at isOpen isHigh isLow isClose
    exact ⟨time, isOpen, isHigh, isLow, isClose, (rowVolume_eq_iff row _).mp rfl⟩
  · rintro ⟨time, isOpen, isHigh, isLow, isClose, volume⟩
    rw [← rowTime_eq_iff] at time
    rw [← rowPrice_eq_iff] at isOpen isHigh isLow isClose
    rw [← rowVolume_eq_iff] at volume
    rw [ofRow, time, isOpen, isHigh, isLow, isClose, volume]
    rfl

/-- A row fails as its time does, or else as the list of its prices. -/
theorem ofRow_eq_error_iff_mapM (row : Json) (fault : Fault) : ofRow row = .error fault ↔
    rowTime row = .error fault ∨
      (∃ t, rowTime row = .ok t) ∧ priceColumns.mapM (rowPrice row) = .error fault := by
  unfold ofRow priceColumns
  cases rowTime row with
  | error => simp [bind, Except.bind]
  | ok t =>
    simp only [List.mapM_cons, List.mapM_nil]
    cases rowPrice row "open" with
    | error => simp [bind, Except.bind]
    | ok =>
    cases rowPrice row "high" with
    | error => simp [bind, Except.bind]
    | ok =>
    cases rowPrice row "low" with
    | error => simp [bind, Except.bind]
    | ok =>
    cases rowPrice row "close" with
    | error => simp [bind, Except.bind]
    | ok => simp [bind, Except.bind, pure, Except.pure]

theorem ofRow_eq_error_iff (row : Json) (fault : Fault) :
    ofRow row = .error fault ↔ Offends row fault := by
  have prices := mapM_eq_iff (fun column p => rowPrice_eq_iff row column (.ok p))
    (fun column e => rowPrice_eq_iff row column (.error e)) priceColumns (.error fault)
  rw [ofRow_eq_error_iff_mapM, prices, rowTime_eq_iff]
  simp only [rowTime_eq_iff]
  constructor
  · rintro (wrong | ⟨⟨t, time⟩, wrong⟩)
    · exact .time wrong
    · cases wrong with
      | first parts earlier wrong => exact .price time parts earlier wrong
  · intro offends
    cases offends with
    | time wrong => exact .inl wrong
    | price time parts earlier wrong => exact .inr ⟨⟨_, time⟩, .first parts earlier wrong⟩

end Rows

section Tables

theorem missingColumn?_eq_some_iff (rows : List Json) (column : String) :
    missingColumn? rows = some column ↔ ∃ before after, priceColumns = before ++ column :: after ∧
      (∀ earlier ∈ before, ∃ row ∈ rows, row.HasKey earlier) ∧
      ∀ row ∈ rows, ¬ row.HasKey column := by
  have present (column : String) : (!rows.all fun row => (row.get? column).isNone) = true ↔
      ∃ row ∈ rows, row.HasKey column := by
    simp [Json.hasKey_iff, Option.isSome_iff_ne_none]
  have absent (column : String) : (rows.all fun row => (row.get? column).isNone) = true ↔
      ∀ row ∈ rows, ¬ row.HasKey column := by
    simp [Json.hasKey_iff]
  simp only [missingColumn?, List.find?_eq_some_iff_append, present, absent]
  constructor
  · rintro ⟨nowhere, before, after, parts, earlier⟩
    exact ⟨before, after, parts, earlier, nowhere⟩
  · rintro ⟨before, after, parts, earlier, nowhere⟩
    exact ⟨nowhere, before, after, parts, earlier⟩

theorem missingColumn?_eq_none_iff (rows : List Json) : missingColumn? rows = none ↔
    ∀ column ∈ priceColumns, ∃ row ∈ rows, row.HasKey column := by
  simp [missingColumn?, List.find?_eq_none, Json.hasKey_iff, Option.isSome_iff_ne_none]

theorem columns_eq_iff (rows : List Json) (candles : List (Candle Float))
    (r : Except Fault (List (Candle Float))) :
    (if rows.isEmpty then return candles
      else
        match missingColumn? rows with
        | some column => .error (.columns (.missing column))
        | none => return candles) = r ↔ ColumnsJudged rows candles r := by
  by_cases empty : rows = []
  · subst empty
    constructor
    · rintro rfl
      exact .empty rfl
    · intro judged
      cases judged with
      | empty | all => rfl
      | missing nonempty => contradiction
  · rw [if_neg (List.isEmpty_iff.not.mpr empty)]
    constructor
    · rintro rfl
      cases found : missingColumn? rows with
      | none => exact .all ((missingColumn?_eq_none_iff rows).mp found)
      | some column =>
        obtain ⟨_, _, parts, earlier, nowhere⟩ := (missingColumn?_eq_some_iff rows column).mp found
        exact .missing empty parts earlier nowhere
    · intro judged
      cases judged with
      | empty none => contradiction
      | all everywhere => rw [(missingColumn?_eq_none_iff rows).mpr everywhere]; rfl
      | missing _ parts earlier nowhere =>
        rw [(missingColumn?_eq_some_iff rows _).mpr ⟨_, _, parts, earlier, nowhere⟩]

theorem ofTable_eq_iff (rows : List Json) (r : Except Fault (List (Candle Float))) :
    ofTable rows = r ↔ TableJudged rows r :=
  bind_eq_iff (mapM_eq_iff ofRow_eq_ok_iff ofRow_eq_error_iff rows) (columns_eq_iff rows) r

theorem numeric_iff (row : Json) : Numeric row ↔ ∃ c, Describes row c := by
  constructor
  · rintro ⟨⟨v, t, found, time⟩, prices⟩
    have price (column : String) (member : column ∈ priceColumns) :
        ∃ p, PriceJudged row column (.ok p) := by
      cases found : row.get? column with
      | none => exact ⟨none, .nothing (.inl found)⟩
      | some v =>
        rcases prices column member v found with rfl | ⟨n, rfl⟩
        · exact ⟨none, .nothing (.inr found)⟩
        · exact ⟨some n.toFloat, .read found⟩
    obtain ⟨openPrice, isOpen⟩ := price "open" (by simp [priceColumns])
    obtain ⟨high, isHigh⟩ := price "high" (by simp [priceColumns])
    obtain ⟨low, isLow⟩ := price "low" (by simp [priceColumns])
    obtain ⟨close, isClose⟩ := price "close" (by simp [priceColumns])
    exact ⟨⟨t, openPrice, high, low, close, rowVolume row⟩, .read found time, isOpen, isHigh, isLow,
      isClose, (rowVolume_eq_iff row _).mp rfl⟩
  · rintro ⟨c, time, isOpen, isHigh, isLow, isClose, -⟩
    have price {column : String} {p : Option Float} (judged : PriceJudged row column (.ok p))
        {v : Json} (found : row.get? column = some v) : v = .null ∨ ∃ n, v = .num n := by
      cases judged with
      | nothing noPrice =>
        rw [found] at noPrice
        exact .inl (by simpa using noPrice)
      | @read n number =>
        rw [found] at number
        exact .inr ⟨n, Option.some.inj number⟩
    cases time with
    | read found time =>
      refine ⟨⟨_, _, found, time⟩, ?_⟩
      simp only [priceColumns, List.forall_mem_cons]
      exact ⟨fun v => price isOpen, fun v => price isHigh, fun v => price isLow,
        fun v => price isClose, nofun⟩

end Tables

/-- A table comes to the candles that its rows describe, in their order, or to the fault of the
first row that has one, or to the first column without a key where no row has one. So it is read
exactly if each row has a time and nothing but numbers and null as its prices, and each column of
prices is a key of some row, unless there are no rows. -/
theorem ofTable_judged :
    (∀ (rows : List Json) (r : Except Fault (List (Candle Float))),
      ofTable rows = r ↔ TableJudged rows r) ∧
    ∀ rows : List Json, (∃ candles, ofTable rows = .ok candles) ↔
      (∀ row ∈ rows, Numeric row) ∧
        (rows ≠ [] → ∀ column ∈ priceColumns, ∃ row ∈ rows, row.HasKey column) := by
  refine ⟨ofTable_eq_iff, fun rows => ?_⟩
  simp only [ofTable_eq_iff, TableJudged, Then.ok_iff, Each.ok_iff, numeric_iff]
  constructor
  · rintro ⟨candles, read, described, judged⟩
    refine ⟨exists_forall₂_iff.mp ⟨read, described⟩, fun nonempty => ?_⟩
    cases judged with
    | empty noRows => contradiction
    | all everywhere => exact everywhere
  · rintro ⟨numeric, everywhere⟩
    obtain ⟨candles, described⟩ := exists_forall₂_iff.mpr numeric
    refine ⟨candles, candles, described, ?_⟩
    by_cases noRows : rows = []
    · exact .empty noRows
    · exact .all (everywhere noRows)

/-- Each column may stand in another row, and a row without a time is refused for that alone. -/
theorem ofTable_of_scattered_columns :
    (∃ candles, ofTable
      [.obj [("origin_time", .num (.int 60)), ("open", .null), ("high", .num (.int 2))],
        .obj [("low", .num (.float 1)), ("origin_time", .num (.int 0)), ("close", .null),
          ("volume", .str "1")]] = .ok candles) ∧
    ofTable [.obj [("open", .str "1")]] =
      .error (.rejected (.missingField timeColumn)) := by
  refine ⟨(ofTable_judged.2 _).mpr ⟨?_, fun _ => ?_⟩, (ofTable_judged.1 _ _).mpr ?_⟩
  · simp only [List.forall_mem_cons]
    refine ⟨⟨⟨_, _, rfl, .seconds (by decide) (by decide)⟩, ?_⟩,
      ⟨⟨_, _, rfl, .seconds (by decide) (by decide)⟩, ?_⟩, nofun⟩
    · simp [priceColumns, Json.get?, List.lookup]
    · simp [priceColumns, Json.get?, List.lookup]
  · simp [priceColumns, Json.hasKey_iff, Json.get?, List.lookup]
  · exact .fault (.first (List.nil_append _).symm nofun (.time (.nothing (.inl rfl))))

end Candle

end TradeBars
