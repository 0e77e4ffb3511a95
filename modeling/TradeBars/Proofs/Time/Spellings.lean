import Mathlib.Algebra.Order.Ring.Nat
import Mathlib.Data.List.TakeWhile
import TradeBars.Proofs.Time.Calendar
import TradeBars.Proofs.Time.Reader

/-! Spellings of an instant: a date and a time of day in UTC, one at an offset, and a date alone.
Each is the calendar's date for the second in question, with all digits. Main statement: each of
them is read as the instant, and no reader that is tried earlier takes it for something else. -/
namespace TradeBars

section Digits

/-- So many digits that spell a number. -/
structure Spells (count : Nat) (ds : List Char) (n : Nat) : Prop where
  length : ds.length = count
  digits : ∀ c ∈ ds, c.isDigit = true
  value : Decimal.value ds = n

theorem Decimal.length_digits_le {n width : Nat} (positive : 0 < width) (below : n < 10 ^ width) :
    (Decimal.digits n).length ≤ width := by
  induction width generalizing n with
  | zero => contradiction
  | succ width ih =>
    rw [Decimal.digits]
    split
    · simp
    · next large =>
      have wide : 0 < width := by
        rcases Nat.eq_zero_or_pos width with rfl | wide
        · omega
        · exact wide
      rw [List.length_append, List.length_singleton]
      have shorter := ih wide (n := n / 10) (by rw [Nat.pow_succ] at below; omega)
      omega

theorem Decimal.value_zeros_append (count : Nat) (ds : List Char) :
    Decimal.value (List.replicate count '0' ++ ds) = Decimal.value ds := by
  have zeros : Decimal.value (List.replicate count '0') = 0 := by
    induction count with
    | zero => rfl
    | succ count ih =>
      rw [List.replicate_succ', Decimal.value_append_singleton, ih]
      rfl
  rw [Decimal.value, List.foldl_append]
  exact congrArg (ds.foldl _) zeros

theorem spells_padded {width n : Nat} (positive : 0 < width) (below : n < 10 ^ width) :
    Spells width (Instant.padded width n) n := by
  have short := Decimal.length_digits_le positive below
  constructor
  case length => simp only [Instant.padded, List.length_append, List.length_replicate]; omega
  case digits =>
    intro c member
    cases List.mem_append.mp member with
    | inl zero => rw [List.eq_of_mem_replicate zero]; rfl
    | inr digit => exact Decimal.isDigit_of_mem_digits digit
  case value => rw [Instant.padded, Decimal.value_zeros_append, Decimal.value_digits]

end Digits

section Trimming

variable {cs : List Char}

theorem Time.Digits.edges (digits : Time.Digits cs) : Begins cs ∧ Ends cs :=
  edges_of_all_not digits.nonempty fun c member => Text.isBlank_of_isDigit (digits.digits c member)

theorem Spells.edges {count n : Nat} (spells : Spells count cs n) (positive : 0 < count) :
    Begins cs ∧ Ends cs :=
  Time.Digits.edges ⟨List.ne_nil_of_length_pos (spells.length ▸ positive), spells.digits⟩

end Trimming

namespace Time

section Steps

variable {α β : Type} {cs rest : List Char}

theorem bind_of {x : Reader α} {f : α → Reader β} {a : α} (first : x cs = some (a, rest)) :
    (x >>= f) cs = f a rest := by
  change (x cs).bind (fun r => f r.1 r.2) = _
  rw [first]
  rfl

theorem bind_of_none {x : Reader α} {f : α → Reader β} (first : x cs = none) :
    (x >>= f) cs = none := by
  change (x cs).bind (fun r => f r.1 r.2) = _
  rw [first]
  rfl

theorem orElse_of {x y : Reader α} {r : α × List Char} (first : x cs = some r) :
    (x <|> y) cs = some r := by
  change (x cs).orElse (fun _ => y cs) = _
  rw [first]
  rfl

theorem orElse_of_none {x y : Reader α} (first : x cs = none) : (x <|> y) cs = y cs := by
  change (x cs).orElse (fun _ => y cs) = _
  rw [first]
  rfl

theorem satisfying_cons {p : Char → Bool} {c : Char} (passes : p c = true) (rest : List Char) :
    Reader.satisfying p (c :: rest) = some (c, rest) := if_pos passes

theorem satisfying_cons_of_not {p : Char → Bool} {c : Char} (fails : p c = false)
    (rest : List Char) : Reader.satisfying p (c :: rest) = none :=
  if_neg (Bool.not_eq_true _ ▸ fails)

theorem discard_of {x : Reader α} {a : α} (first : x cs = some (a, rest)) :
    discard x cs = some ((), rest) := by
  change (x cs).bind (fun r => some ((), r.2)) = _
  rw [first]
  rfl

theorem discard_of_none {x : Reader α} (first : x cs = none) : discard x cs = none := by
  change (x cs).bind (fun r => some ((), r.2)) = _
  rw [first]
  rfl

theorem literal_cons (c : Char) (rest : List Char) :
    Reader.literal c (c :: rest) = some ((), rest) :=
  discard_of (satisfying_cons (beq_self_eq_true c) rest)

theorem literal_cons_of_ne {c d : Char} (other : d ≠ c) (rest : List Char) :
    Reader.literal c (d :: rest) = none :=
  discard_of_none (satisfying_cons_of_not (p := (· == c)) (beq_false_of_ne other) rest)

theorem finish_nil : Reader.finish [] = some ((), []) := rfl

end Steps

section Numbers

variable {count n : Nat} {ds : List Char} (spells : Spells count ds n)
include spells

theorem fixed_append (rest : List Char) : Reader.fixed count (ds ++ rest) = some (n, rest) := by
  obtain ⟨rfl, digits, rfl⟩ := spells
  simp [Reader.fixed, List.all_eq_true.mpr digits]

theorem number_append (positive : 0 < count) (rest : List Char) :
    Reader.number count (ds ++ rest) = some (n, rest) := by
  obtain ⟨rfl, digits, rfl⟩ := spells
  have nonempty : ds ≠ [] := List.ne_nil_of_length_pos positive
  have all : ds.takeWhile Char.isDigit = ds := List.takeWhile_eq_self_iff.mpr digits
  simp [Reader.number, all, nonempty]

theorem blanks_append (positive : 0 < count) (rest : List Char) :
    Reader.blanks (ds ++ rest) = some ((), ds ++ rest) := by
  obtain ⟨rfl, digits, rfl⟩ := spells
  obtain ⟨d, more, rfl⟩ := List.exists_cons_of_ne_nil (List.ne_nil_of_length_pos positive)
  have dark := Text.isBlank_of_isDigit (digits d List.mem_cons_self)
  rw [Reader.blanks, List.cons_append, Text.dropBlank_cons_of_not dark]

end Numbers

theorem short_append {n : Nat} {ds : List Char} (spells : Spells 2 ds n) (rest : List Char) :
    short (ds ++ rest) = some (n, rest) := by
  rw [short, bind_of (blanks_append spells two_pos rest), number_append spells two_pos]

theorem year_append {n : Nat} {ds : List Char} (spells : Spells 4 ds n) (rest : List Char) :
    year (ds ++ rest) = some ((n : Int), rest) := by
  rw [year, bind_of (blanks_append spells four_pos rest)]
  obtain ⟨d, more, rfl⟩ := List.exists_cons_of_ne_nil (List.ne_nil_of_length_pos
    (spells.length ▸ four_pos))
  have digit := spells.digits d List.mem_cons_self
  have plus : d ≠ '+' := by
    rintro rfl
    contradiction
  have minus : d ≠ '-' := by
    rintro rfl
    contradiction
  rw [List.cons_append, orElse_of_none (bind_of_none (literal_cons_of_ne plus _)),
    orElse_of_none (bind_of_none (literal_cons_of_ne minus _)), ← List.cons_append,
    bind_of (number_append spells four_pos rest)]
  rfl

section Texts

/-- A date with a year of four digits. -/
def dateText (d : Date) : List Char :=
  Instant.padded 4 d.year.toNat ++ '-' :: Instant.padded 2 d.month ++ '-' :: Instant.padded 2 d.day

/-- The time of day of so many seconds after midnight. -/
def clockText (second : Nat) : List Char :=
  Instant.padded 2 (second / 3600) ++ ':' :: Instant.padded 2 (second / 60 % 60) ++
    ':' :: Instant.padded 2 (second % 60)

def clockOf (second nanos : Nat) : Clock :=
  ⟨second / 3600, second / 60 % 60, second % 60, nanos⟩

/-- Nothing, or a point and digits. -/
def Fraction (cs : List Char) : Prop := cs = [] ∨ ∃ ds, Digits ds ∧ cs = '.' :: ds

/-- The letter for UTC, or hours and minutes to the east or to the west of it. -/
inductive ZoneText : Int → List Char → Prop where
  | utc {c : Char} : c = 'Z' ∨ c = 'z' → ZoneText 0 [c]
  | east {hours minutes : Nat} : hours < 24 → minutes < 60 →
      ZoneText (hours * 3600 + minutes * 60 : Nat)
        ('+' :: Instant.padded 2 hours ++ ':' :: Instant.padded 2 minutes)
  | west {hours minutes : Nat} : hours < 24 → minutes < 60 →
      ZoneText (-(hours * 3600 + minutes * 60 : Nat))
        ('-' :: Instant.padded 2 hours ++ ':' :: Instant.padded 2 minutes)

end Texts

section Fields

variable {d : Date} (proper : d.Proper) (years : 0 ≤ d.year ∧ d.year ≤ 9999)
include proper years

theorem spells_date : Spells 4 (Instant.padded 4 d.year.toNat) d.year.toNat ∧
    Spells 2 (Instant.padded 2 d.month) d.month ∧ Spells 2 (Instant.padded 2 d.day) d.day := by
  obtain ⟨month, day⟩ := proper
  have most := (daysInMonth_bounds (isLeap d.year) d.month).2
  exact ⟨spells_padded (by decide) (by omega), spells_padded (by decide) (by omega),
    spells_padded (by decide) (by omega)⟩

theorem looseDate_append (rest : List Char) :
    looseDate (pure ()) (dateText d ++ rest) = some (d, rest) := by
  obtain ⟨isYear, isMonth, isDay⟩ := spells_date proper years
  have year : ((d.year.toNat : Nat) : Int) = d.year := Int.toNat_of_nonneg years.1
  simp only [dateText, List.append_assoc, List.cons_append]
  rw [looseDate, bind_of (year_append isYear _), bind_of (a := ()) rfl, bind_of (literal_cons _ _),
    bind_of (short_append isMonth _), bind_of (a := ()) rfl, bind_of (literal_cons _ _),
    bind_of (short_append isDay _), year]
  rfl

end Fields

section Clocks

variable {second : Nat} (inDay : second < 86400)
include inDay

theorem spells_clock : Spells 2 (Instant.padded 2 (second / 3600)) (second / 3600) ∧
    Spells 2 (Instant.padded 2 (second / 60 % 60)) (second / 60 % 60) ∧
    Spells 2 (Instant.padded 2 (second % 60)) (second % 60) :=
  ⟨spells_padded (by decide) (by omega), spells_padded (by decide) (by omega),
    spells_padded (by decide) (by omega)⟩

theorem looseClock_append {rest last : List Char} {nanos : Nat}
    (fraction : Reader.fraction rest = some (nanos, last)) :
    looseClock (pure ()) (clockText second ++ rest) = some (clockOf second nanos, last) := by
  obtain ⟨isHour, isMinute, isSecond⟩ := spells_clock inDay
  simp only [clockText, List.append_assoc, List.cons_append]
  rw [looseClock, bind_of (short_append isHour _), bind_of (a := ()) rfl,
    bind_of (literal_cons _ _), bind_of (short_append isMinute _), bind_of (a := ()) rfl,
    bind_of (literal_cons _ _), bind_of (short_append isSecond _), bind_of fraction]
  rfl

end Clocks

section Ends

/-- Where a fraction ends, and where one that is not there would begin. -/
def Stops (rest : List Char) : Prop := ∀ c ∈ rest.head?, c.isDigit = false ∧ c ≠ '.'

theorem Stops.span {rest : List Char} (stops : Stops rest) :
    rest.takeWhile Char.isDigit = [] ∧ rest.dropWhile Char.isDigit = rest := by
  cases rest with
  | nil => exact ⟨rfl, rfl⟩
  | cons c rest =>
    have noDigit := (stops c rfl).1
    constructor <;> simp [noDigit]

theorem Fraction.read {cs rest : List Char} (fraction : Fraction cs) (stops : Stops rest) :
    ∃ nanos, Reader.fraction (cs ++ rest) = some (nanos, rest) := by
  obtain rfl | ⟨ds, ⟨nonempty, digits⟩, rfl⟩ := fraction
  · cases rest with
    | nil => exact ⟨0, rfl⟩
    | cons c rest =>
      have other := (stops c rfl).2
      exact ⟨0, by simp [Reader.fraction, other]⟩
  · obtain ⟨front, back⟩ := stops.span
    simp only [Reader.fraction, List.cons_append, List.takeWhile_append_of_pos digits,
      List.dropWhile_append_of_pos digits, front, back, List.append_nil, List.isEmpty_iff, nonempty,
      if_false]
    exact ⟨_, rfl⟩

theorem ZoneText.stops {east : Int} {cs : List Char} (zone : ZoneText east cs) : Stops cs := by
  intro c head
  obtain ⟨rfl | rfl⟩ | _ | _ := zone
  all_goals
    obtain rfl := Option.some.inj head
    decide

/-- A sign is no letter, so that the hours and minutes behind it are read. -/
theorem zone_append {sign : Char} (isSign : sign = '+' ∨ sign = '-') {hours minutes : Nat}
    (inDay : hours < 24) (inHour : minutes < 60) :
    zone (Reader.literal ':')
      (sign :: Instant.padded 2 hours ++ ':' :: Instant.padded 2 minutes) =
        some (if isMinus sign then -((hours * 3600 + minutes * 60 : Nat) : Int)
          else (hours * 3600 + minutes * 60 : Nat), []) := by
  have isHours : Spells 2 (Instant.padded 2 hours) hours := spells_padded (by decide) (by omega)
  have isMinutes : Spells 2 (Instant.padded 2 minutes) minutes :=
    spells_padded (by decide) (by omega)
  have passes : (sign == '+' || isMinus sign) = true ∧ (sign == 'Z' || sign == 'z') = false := by
    rcases isSign with rfl | rfl <;> exact ⟨rfl, rfl⟩
  have noLetter (rest : List Char) :
      discard (Reader.satisfying fun c => c == 'Z' || c == 'z') (sign :: rest) = none :=
    discard_of_none (satisfying_cons_of_not passes.2 rest)
  rw [zone, List.cons_append, orElse_of_none (bind_of_none (noLetter _)), offset,
    bind_of (satisfying_cons passes.1 _), bind_of (fixed_append isHours _),
    bind_of (literal_cons _ _), ← List.append_nil (Instant.padded 2 minutes),
    bind_of (fixed_append isMinutes _), if_neg (by omega)]
  rfl

theorem ZoneText.read {east : Int} {cs : List Char} (zone : ZoneText east cs) :
    Time.zone (Reader.literal ':') cs = some (east, []) := by
  cases zone with
  | @utc c letter =>
    have passes : (c == 'Z' || c == 'z') = true := by simpa using letter
    exact orElse_of (bind_of (discard_of (satisfying_cons passes [])))
  | east inDay inHour => exact zone_append (.inl rfl) inDay inHour
  | west inDay inHour => exact zone_append (.inr rfl) inDay inHour

theorem ZoneText.bound {east : Int} {cs : List Char} (zone : ZoneText east cs) :
    east.natAbs < 86400 := by
  cases zone <;> omega

end Ends

section Whole

variable {d : Date} (proper : d.Proper) (years : 0 ≤ d.year ∧ d.year ≤ 9999)
  {second : Nat} (inDay : second < 86400)
include proper years inDay

theorem strict_append {mark : Char} (isMark : isDateEnd mark = true)
    {rest last : List Char} {nanos : Nat} (fraction : Reader.fraction rest = some (nanos, last)) :
    strict (dateText d ++ mark :: clockText second ++ rest) =
      (do
        let east ← zone (Reader.literal ':')
        Reader.finish
        match instant? d (clockOf second nanos) east with
        | some t => return t
        | none => failure : Reader Instant) last := by
  obtain ⟨isYear, isMonth, isDay⟩ := spells_date proper years
  obtain ⟨isHour, isMinute, isSecond⟩ := spells_clock inDay
  have year : ((d.year.toNat : Nat) : Int) = d.year := Int.toNat_of_nonneg years.1
  simp only [dateText, clockText, List.append_assoc, List.cons_append]
  rw [strict, bind_of (fixed_append isYear _), bind_of (literal_cons _ _),
    bind_of (fixed_append isMonth _), bind_of (literal_cons _ _), bind_of (fixed_append isDay _),
    bind_of (discard_of (satisfying_cons isMark _)), bind_of (fixed_append isHour _),
    bind_of (literal_cons _ _), bind_of (fixed_append isMinute _), bind_of (literal_cons _ _),
    bind_of (fixed_append isSecond _), bind_of fraction, year]
  rfl

end Whole

section Instants

variable {day : Int} {d : Date} (named : Gregorian day d) (years : 0 ≤ d.year ∧ d.year ≤ 9999)
  {second : Nat} (inDay : second < 86400)
include named years inDay

theorem instant?_of_named {east : Int} (bound : east.natAbs < 86400) (nanos : Nat) :
    instant? d (clockOf second nanos) east = some ⟨day * 86400 + second - east, nanos⟩ := by
  have bounds := named.day_bounds years
  obtain ⟨month, inMonth⟩ := named.proper
  have date : d.valid = true := by
    have year : firstYear ≤ d.year ∧ d.year ≤ lastYear := by
      simp only [firstYear, lastYear]
      omega
    simp [Date.valid, year, month, inMonth]
  have clock : (clockOf second nanos).valid = true := by
    have hour : second / 3600 ≤ 23 := by omega
    have minute : second / 60 % 60 ≤ 59 := by omega
    have last : second % 60 ≤ 60 := by omega
    simp [Clock.valid, clockOf, hour, minute, last]
  have noLeap : (clockOf second nanos).second ≠ 60 := by
    simp only [clockOf]
    omega
  have time : (clockOf second nanos).hour * 3600 + (clockOf second nanos).minute * 60 +
      (clockOf second nanos).second = second := by
    simp only [clockOf]
    omega
  have covered : Instant.firstSecond ≤ day * 86400 + second - east ∧
      day * 86400 + second - east ≤ Instant.lastSecond := by
    simp only [Instant.firstSecond, Instant.lastSecond]
    omega
  simp only [instant?, date, clock, bound, noLeap, named.toDays_eq, time, covered, and_self,
    if_true, if_false]
  rfl

omit named years in
theorem mark_append {mark : Char} (isMark : mark = ' ' ∨ mark = 'T') (rest : List Char) :
    (Reader.literal 'T' <|> Reader.blanks) (mark :: (clockText second ++ rest)) =
      some ((), clockText second ++ rest) := by
  obtain ⟨isHour, -, -⟩ := spells_clock inDay
  obtain rfl | rfl := isMark
  · rw [orElse_of_none (literal_cons_of_ne (by decide) _)]
    simp only [clockText, List.append_assoc]
    exact blanks_append isHour two_pos _
  · exact orElse_of (literal_cons _ _)

theorem read?_zoned {mark : Char} (isMark : isDateEnd mark = true) {fraction zone : List Char}
    {east : Int} (isFraction : Fraction fraction) (isZone : ZoneText east zone) :
    ∃ nanos, Instant.read? (dateText d ++ mark :: clockText second ++ (fraction ++ zone)) =
      some ⟨day * 86400 + second - east, nanos⟩ := by
  obtain ⟨nanos, read⟩ := isFraction.read isZone.stops
  have instant := instant?_of_named named years inDay isZone.bound nanos
  have whole : strict (dateText d ++ mark :: clockText second ++ (fraction ++ zone)) =
      some (⟨day * 86400 + second - east, nanos⟩, []) := by
    rw [strict_append named.proper years inDay isMark read, bind_of isZone.read,
      bind_of finish_nil, instant]
    rfl
  exact ⟨nanos, by rw [Instant.read?, orElse_of whole]; rfl⟩

theorem read?_naive {mark : Char} (isMark : mark = ' ' ∨ mark = 'T') {fraction : List Char}
    (isFraction : Fraction fraction) :
    ∃ nanos, Instant.read? (dateText d ++ mark :: clockText second ++ fraction) =
      some ⟨day * 86400 + second, nanos⟩ := by
  have stops : Stops [] := nofun
  obtain ⟨nanos, read⟩ := isFraction.read stops
  rw [List.append_nil] at read
  have noOffset : (0 : Int).natAbs < 86400 := by decide
  have instant := instant?_of_named named years inDay noOffset nanos
  have isEnd : isDateEnd mark = true := by
    rcases isMark with rfl | rfl <;> rfl
  have noZone : strict (dateText d ++ mark :: clockText second ++ fraction) = none := by
    rw [strict_append named.proper years inDay isEnd read]
    exact bind_of_none rfl
  have plain : naive (dateText d ++ mark :: clockText second ++ fraction) =
      some (⟨day * 86400 + second, nanos⟩, []) := by
    simp only [List.append_assoc, List.cons_append]
    rw [naive, bind_of (looseDate_append named.proper years _),
      bind_of (mark_append inDay isMark _), bind_of (looseClock_append inDay read),
      bind_of finish_nil, instant, Int.sub_zero]
    rfl
  exact ⟨nanos, by rw [Instant.read?, orElse_of_none noZone, orElse_of plain]; rfl⟩

omit inDay in
theorem read?_date : Instant.read? (dateText d) = some ⟨day * 86400, 0⟩ := by
  obtain ⟨isYear, isMonth, isDay⟩ := spells_date named.proper years
  have loose := looseDate_append named.proper years []
  rw [List.append_nil] at loose
  have noMark : strict (dateText d) = none := by
    simp only [dateText, List.append_assoc, List.cons_append]
    rw [strict, bind_of (fixed_append isYear _), bind_of (literal_cons _ _),
      bind_of (fixed_append isMonth _), bind_of (literal_cons _ _),
      ← List.append_nil (Instant.padded 2 d.day), bind_of (fixed_append isDay _)]
    exact bind_of_none rfl
  have noClock : naive (dateText d) = none := by
    rw [naive, bind_of loose]
    rfl
  have plain : midnight (dateText d) = some (⟨day * 86400, 0⟩, []) := by
    have instant : instant? d ⟨0, 0, 0, 0⟩ 0 = some ⟨day * 86400, 0⟩ := by
      have start : 0 < 86400 := by decide
      have noOffset : (0 : Int).natAbs < 86400 := by decide
      simpa [clockOf] using instant?_of_named named years start noOffset 0
    rw [midnight, bind_of loose, bind_of finish_nil, instant]
    rfl
  rw [Instant.read?, orElse_of_none noMark, orElse_of_none noClock, plain]
  rfl

end Instants

/-- The spellings of a second: its date and time of day in UTC, those at an offset, or the date
alone where the day begins. The dates are in years of four digits, and a fraction of a second may
follow a time of day. -/
inductive Spelled (s : Int) : List Char → Prop where
  | naive {d : Date} {mark : Char} {fraction : List Char} :
      Gregorian (s / 86400) d → 0 ≤ d.year ∧ d.year ≤ 9999 → mark = ' ' ∨ mark = 'T' →
      Fraction fraction →
      Spelled s (dateText d ++ mark :: clockText (s % 86400).toNat ++ fraction)
  | zoned {east : Int} {d : Date} {mark : Char} {fraction zone : List Char} :
      Gregorian ((s + east) / 86400) d → 0 ≤ d.year ∧ d.year ≤ 9999 → isDateEnd mark = true →
      Fraction fraction → ZoneText east zone →
      Spelled s (dateText d ++ mark :: clockText ((s + east) % 86400).toNat ++ (fraction ++ zone))
  | date {d : Date} : s % 86400 = 0 → Gregorian (s / 86400) d → 0 ≤ d.year ∧ d.year ≤ 9999 →
      Spelled s (dateText d)

theorem Spelled.read? {s : Int} {cs : List Char} (spelled : Spelled s cs) :
    ∃ nanos, Instant.read? cs = some ⟨s, nanos⟩ := by
  cases spelled with
  | naive named years isMark isFraction =>
    have inDay : (s % 86400).toNat < 86400 := by omega
    have read := read?_naive named years inDay isMark isFraction
    have second : s / 86400 * 86400 + ((s % 86400).toNat : Int) = s := by omega
    rwa [second] at read
  | @zoned east _ _ _ _ named years isMark isFraction isZone =>
    have inDay : ((s + east) % 86400).toNat < 86400 := by omega
    have read := read?_zoned named years inDay isMark isFraction isZone
    have second : (s + east) / 86400 * 86400 + (((s + east) % 86400).toNat : Int) - east = s := by
      omega
    rwa [second] at read
  | date midnight named years =>
    have read := read?_date named years
    have second : s / 86400 * 86400 = s := by omega
    rw [second] at read
    exact ⟨0, read⟩

section Trimmed

theorem dateText_edges {d : Date} (proper : d.Proper) (years : 0 ≤ d.year ∧ d.year ≤ 9999) :
    Begins (dateText d) ∧ Ends (dateText d) := by
  obtain ⟨isYear, -, isDay⟩ := spells_date proper years
  constructor
  · exact ((isYear.edges four_pos).1.append _).append _
  · exact ((isDay.edges two_pos).2.cons '-').append _

theorem clockText_ends {second : Nat} (inDay : second < 86400) : Ends (clockText second) := by
  obtain ⟨-, -, isSecond⟩ := spells_clock inDay
  exact ((isSecond.edges two_pos).2.cons ':').append _

theorem ZoneText.ends {east : Int} {cs : List Char} (zone : ZoneText east cs) : Ends cs := by
  have minutes {minutes : Nat} (inHour : minutes < 60) : Ends (Instant.padded 2 minutes) :=
    (spells_padded (by decide) (by omega)).edges two_pos |>.2
  cases zone with
  | utc letter =>
    obtain rfl | rfl := letter <;> exact ⟨_, rfl, rfl⟩
  | east _ inHour => exact ((minutes inHour).cons ':').append _
  | west _ inHour => exact ((minutes inHour).cons ':').append _

/-- No spelling has blanks at its ends. -/
theorem Spelled.edges {s : Int} {cs : List Char} (spelled : Spelled s cs) :
    Begins cs ∧ Ends cs := by
  cases spelled with
  | @naive d mark fraction named years _ isFraction =>
    refine ⟨(((dateText_edges named.proper years).1).append _).append _, ?_⟩
    obtain rfl | ⟨ds, digits, rfl⟩ := isFraction
    · rw [List.append_nil]
      exact ((clockText_ends (by omega)).cons mark).append _
    · exact (digits.edges.2.cons '.').append _
  | zoned named years _ _ isZone =>
    exact ⟨(((dateText_edges named.proper years).1).append _).append _,
      (isZone.ends.append _).append _⟩
  | date _ named years => exact dateText_edges named.proper years

end Trimmed

end Time

end TradeBars
