import TradeBars.Interval
import TradeBars.Proofs.Text.Amounts

/-! The texts of intervals. A text is read as an interval exactly if it is a positive amount of
seconds in some unit and the amount fits in 63 bits. All other texts are refused and given back as
they are. -/
namespace TradeBars.Interval
open Text

/-- The units of time in each of their spellings, with their seconds. -/
def units : List (String × Nat) :=
  [("s", 1), ("S", 1), ("m", 60), ("min", 60), ("T", 60), ("h", 3600), ("H", 3600), ("d", 86400),
    ("D", 86400)]

/-- No spelling of a unit holds a blank or a digit. -/
theorem marks_of_units : ∀ unit ∈ units,
    (∀ c ∈ unit.1.toList, isBlank c = false ∧ c.isDigit = false) ∧ 0 < unit.2 := by
  have checked : (units.all fun unit =>
    unit.1.toList.all (fun c => !isBlank c && !c.isDigit) && 0 < unit.2) = true := by decide
  simpa using checked

theorem unitSeconds?_eq_some_iff {mark : List Char} {size : Nat} :
    unitSeconds? mark = some size ↔ ∃ name, (name, size) ∈ units ∧ name.toList = mark := by
  constructor
  · intro found
    refine ⟨String.ofList mark, ?_, String.toList_ofList⟩
    unfold unitSeconds? at found
    split at found
    · next spelled => rcases spelled with rfl | rfl <;> cases found <;> decide
    split at found
    · next spelled => rcases spelled with rfl | rfl | rfl <;> cases found <;> decide
    split at found
    · next spelled => rcases spelled with rfl | rfl <;> cases found <;> decide
    split at found
    · next spelled => rcases spelled with rfl | rfl <;> cases found <;> decide
    · contradiction
  · rintro ⟨name, member, rfl⟩
    have known : ∀ unit ∈ units, unitSeconds? unit.1.toList = some unit.2 := by decide
    exact known _ member

theorem ofSeconds?_eq_some_iff {n : Int} {i : Interval} : ofSeconds? n = some i ↔ i.seconds = n := by
  unfold ofSeconds?
  split
  · rw [Option.some.injEq]
    constructor <;> rintro rfl <;> rfl
  · next out =>
    refine iff_of_false nofun ?_
    rintro rfl
    exact out ⟨i.positive, i.bounded⟩

variable {cs : List Char}

theorem parse?_of_counted {name : String} {size n : Nat} (unit : (name, size) ∈ units)
    (counted : Counted name.toList n cs) : parse? cs = ofSeconds? (n * size : Nat) := by
  have marks := (marks_of_units _ unit).1
  obtain ⟨ds, nonempty, digits, rfl, stripped⟩ :=
    (counted_iff fun c member => (marks c member).1).mp counted
  obtain ⟨front, back⟩ := span_append digits fun c head => (marks c (List.mem_of_mem_head? head)).2
  have found : unitSeconds? name.toList = some size := unitSeconds?_eq_some_iff.mpr ⟨_, unit, rfl⟩
  simp [parse?, stripped, front, back, found, nonempty]

/-- An interval is a positive amount, so that it counts at least one unit. -/
theorem parse?_eq_some_iff {i : Interval} : parse? cs = some i ↔
    ∃ amount, Amount units (2 ^ 63) cs amount ∧ i.seconds = amount := by
  constructor
  · intro read
    unfold parse? at read
    dsimp only at read
    split at read
    · next size found =>
      obtain ⟨nonempty, read⟩ := Option.ite_none_left_eq_some.mp read
      obtain ⟨name, unit, mark⟩ := unitSeconds?_eq_some_iff.mp found
      have seconds := ofSeconds?_eq_some_iff.mp read
      have marks : _ ∧ 0 < size := marks_of_units _ unit
      have counted : Counted name.toList
          (Decimal.value ((strip cs).takeWhile Char.isDigit)) cs := by
        refine (counted_iff fun c member => (marks.1 c member).1).mpr ⟨_, by simpa using nonempty,
          List.all_eq_true.mp List.all_takeWhile, rfl, ?_⟩
        rw [mark, List.takeWhile_append_dropWhile]
      have fits := i.bounded
      have count :=
        Nat.le_mul_of_pos_right (Decimal.value ((strip cs).takeWhile Char.isDigit)) marks.2
      exact ⟨_, .of unit counted (by omega) (by omega), seconds⟩
    · contradiction
  · rintro ⟨_, ⟨unit, counted, -, -⟩, seconds⟩
    rw [parse?_of_counted unit counted]
    exact ofSeconds?_eq_some_iff.mpr seconds

theorem read_eq_ok_iff {text : String} {i : Interval} :
    read text = .ok i ↔ parse? text.toList = some i := by
  unfold read
  cases parse? text.toList <;> simp

theorem read_eq_error_iff {text : String} {fault : Fault} :
    read text = .error fault ↔ fault = .interval text ∧ parse? text.toList = none := by
  unfold read
  cases parse? text.toList <;> simp [eq_comm]

/-- A text is read exactly if it is a positive amount of seconds in some unit; what is no such
amount is refused as a whole. The seconds of an interval are one of its texts. -/
theorem interval_grammar :
    (∀ text i, read text = .ok i ↔
      ∃ amount, Amount units (2 ^ 63) text.toList amount ∧ i.seconds = amount) ∧
    (∀ text fault, read text = .error fault ↔ fault = .interval text ∧
      ∀ amount, Amount units (2 ^ 63) text.toList amount → amount = 0) ∧
    ∀ i : Interval, read (String.ofList (Decimal.ofInt i.seconds ++ ['s'])) = .ok i := by
  refine ⟨fun text i => read_eq_ok_iff.trans parse?_eq_some_iff, ?_, ?_⟩
  · intro text fault
    rw [read_eq_error_iff, Option.eq_none_iff_forall_ne_some]
    refine and_congr_right fun _ => ⟨?_, ?_⟩
    · intro unread amount written
      by_contra nonzero
      have bounded := written.lt
      exact unread ⟨amount, by omega, by omega⟩ (parse?_eq_some_iff.mpr ⟨amount, written, rfl⟩)
    · intro zero i read
      obtain ⟨amount, written, seconds⟩ := parse?_eq_some_iff.mp read
      have positive := i.positive
      have isZero := zero amount written
      omega
  · intro i
    have unit : ("s", 1) ∈ units := by decide
    obtain ⟨n, seconds⟩ := Int.eq_ofNat_of_zero_le i.positive.le
    have plain : Decimal.ofInt i.seconds = Decimal.digits n := by simp [Decimal.ofInt, seconds]
    have counted : Counted "s".toList n (Decimal.digits n ++ ['s']) := counted_digits n _
    rw [read_eq_ok_iff, String.toList_ofList, plain, parse?_of_counted unit counted,
      ofSeconds?_eq_some_iff, seconds, Nat.mul_one]

theorem interval_of_padded_minutes :
    read "\u2003007min\n" = .ok ⟨420, by decide, by decide⟩ ∧
      read (String.ofList (Decimal.ofInt 9223372036854775807 ++ ['s'])) =
        .ok ⟨9223372036854775807, by decide, by decide⟩ := by
  refine ⟨(interval_grammar.1 _ _).mpr ⟨7 * 60, ?_, rfl⟩,
    interval_grammar.2.2 ⟨9223372036854775807, by decide, by decide⟩⟩
  have unit : ("min", 60) ∈ units := by decide
  have counted : Counted ['m', 'i', 'n'] 7
      (['\u2003'] ++ (['0', '0', '7'] ++ ['m', 'i', 'n']) ++ ['\n']) :=
    .intro (List.all_eq_true.mp rfl) (by simp) (List.all_eq_true.mp rfl) (by decide)
      (List.all_eq_true.mp rfl)
  have counted : Counted "min".toList 7 "\u2003007min\n".toList := by simpa using counted
  exact .of unit counted (by decide) (by decide)

example : read "153722867280912931m" = .error (.interval "153722867280912931m") := rfl

end TradeBars.Interval
