import TradeBars.DollarSize
import TradeBars.Proofs.Text.Amounts

/-! The texts of dollar sizes. A text is read as a size exactly if it is an amount of units,
thousands or millions that fits in 64 bits. All other texts are refused and given back as they are,
and a suffix is worth just the zeros that it stands for. -/
namespace TradeBars.DollarSize
open Text

/-- The suffixes with what they multiply by, and none for single units. -/
def suffixes : List (String × Nat) := [("", 1), ("k", 1000), ("M", 1000000)]

/-- No suffix holds a blank. -/
theorem marks_of_suffixes : ∀ suffix ∈ suffixes,
    (∀ c ∈ suffix.1.toList, isBlank c = false) ∧ 0 < suffix.2 := by
  have checked : (suffixes.all fun suffix =>
    suffix.1.toList.all (!isBlank ·) && 0 < suffix.2) = true := by decide
  simpa using checked

theorem exists_of_splitSuffix {cs ds : List Char} {factor : Nat}
    (split : splitSuffix cs = (ds, factor)) :
    ∃ name, (name, factor) ∈ suffixes ∧ cs = ds ++ name.toList := by
  unfold splitSuffix at split
  split at split
  · next last =>
    obtain ⟨front, rfl⟩ := List.getLast?_eq_some_iff.mp last
    cases split
    exact ⟨"k", by decide, by simp⟩
  · next last =>
    obtain ⟨front, rfl⟩ := List.getLast?_eq_some_iff.mp last
    cases split
    exact ⟨"M", by decide, by simp⟩
  · cases split
    exact ⟨"", by decide, (List.append_nil _).symm⟩

variable {cs ds : List Char} {name : String} {factor : Nat}

/-- A run of digits ends in no suffix. -/
theorem splitSuffix_append (suffix : (name, factor) ∈ suffixes) (nonempty : ds ≠ [])
    (digits : ∀ c ∈ ds, c.isDigit = true) : splitSuffix (ds ++ name.toList) = (ds, factor) := by
  simp only [suffixes, List.mem_cons, Prod.mk.injEq, List.not_mem_nil, or_false] at suffix
  rcases suffix with ⟨rfl, rfl⟩ | ⟨rfl, rfl⟩ | ⟨rfl, rfl⟩
  · have last := digits _ (List.getLast_mem nonempty)
    simp only [splitSuffix, String.toList_empty, List.append_nil,
      List.getLast?_eq_some_getLast nonempty]
    split
    · next same => rw [Option.some.inj same] at last; contradiction
    · next same => rw [Option.some.inj same] at last; contradiction
    · rfl
  · simp [splitSuffix]
  · simp [splitSuffix]

theorem parse?_of_counted {n : Nat} (suffix : (name, factor) ∈ suffixes)
    (counted : Counted name.toList n cs) : parse? cs =
      if n * factor < UInt64.size then some ⟨(n * factor).toUInt64⟩ else none := by
  obtain ⟨ds, nonempty, digits, rfl, stripped⟩ :=
    (counted_iff (marks_of_suffixes _ suffix).1).mp counted
  have all : ds.all Char.isDigit = true := List.all_eq_true.mpr digits
  simp [parse?, stripped, splitSuffix_append suffix nonempty digits, nonempty, all]

theorem parse?_eq_some_iff {d : DollarSize} :
    parse? cs = some d ↔ Amount suffixes (2 ^ 64) cs d.units.toNat := by
  constructor
  · intro read
    rcases split : splitSuffix (strip cs) with ⟨ds, factor⟩
    obtain ⟨name, suffix, stripped⟩ := exists_of_splitSuffix split
    simp only [parse?, split] at read
    obtain ⟨isRun, read⟩ := Option.ite_none_left_eq_some.mp read
    obtain ⟨fits, made⟩ := Option.ite_none_right_eq_some.mp read
    cases made
    have marks : _ ∧ 0 < factor := marks_of_suffixes _ suffix
    have run : ds ≠ [] ∧ ∀ c ∈ ds, c.isDigit = true := by simpa using isRun
    have counted : Counted name.toList (Decimal.value ds) cs :=
      (counted_iff marks.1).mpr ⟨ds, run.1, run.2, rfl, stripped⟩
    have count := Nat.le_mul_of_pos_right (Decimal.value ds) marks.2
    have whole : (Decimal.value ds * factor).toUInt64.toNat = Decimal.value ds * factor :=
      Nat.mod_eq_of_lt fits
    rw [whole]
    exact .of suffix counted (count.trans_lt fits) fits
  · intro written
    rcases d with ⟨units⟩
    generalize amount : units.toNat = n at written
    obtain ⟨suffix, counted, -, fits⟩ := written
    rw [parse?_of_counted suffix counted, ← amount, if_pos units.toNat_lt]
    simp

theorem read_eq_ok_iff {text : String} {d : DollarSize} :
    read text = .ok d ↔ parse? text.toList = some d := by
  unfold read
  cases parse? text.toList <;> simp

theorem read_eq_error_iff {text : String} {fault : Fault} :
    read text = .error fault ↔ fault = .dollarSize text ∧ parse? text.toList = none := by
  unfold read
  cases parse? text.toList <;> simp [eq_comm]

theorem parse?_digits (nonempty : ds ≠ []) (digits : ∀ c ∈ ds, c.isDigit = true) :
    parse? ds =
      if Decimal.value ds < UInt64.size then some ⟨(Decimal.value ds).toUInt64⟩ else none := by
  have plain : ("", 1) ∈ suffixes := by decide
  have counted := counted_append nonempty digits "".toList
  simpa using parse?_of_counted plain counted

/-- What a suffix multiplies by are the zeros that may stand in its place. -/
theorem parse?_zeros (count : Nat) (suffix : (name, 10 ^ count) ∈ suffixes) (nonempty : ds ≠ [])
    (digits : ∀ c ∈ ds, c.isDigit = true) :
    parse? (ds ++ name.toList) = parse? (ds ++ List.replicate count '0') := by
  have zeros : ∀ c ∈ ds ++ List.replicate count '0', c.isDigit = true := by
    refine List.forall_mem_append.mpr ⟨digits, ?_⟩
    intro c zero
    rw [List.eq_of_mem_replicate zero]
    rfl
  rw [parse?_of_counted suffix (counted_append nonempty digits name.toList),
    parse?_digits (List.append_ne_nil_of_left_ne_nil nonempty _) zeros, Decimal.value_append_zeros]

/-- A text is read exactly if it is an amount of units, thousands or millions that fits; what is no
such amount is refused as a whole. Each size has the decimal text of its units. -/
theorem dollarSize_grammar :
    (∀ text d, read text = .ok d ↔ Amount suffixes (2 ^ 64) text.toList d.units.toNat) ∧
    (∀ text fault, read text = .error fault ↔ fault = .dollarSize text ∧
      ∀ amount, ¬ Amount suffixes (2 ^ 64) text.toList amount) ∧
    (∀ n : UInt64, read (String.ofList (Decimal.digits n.toNat)) = .ok ⟨n⟩) ∧
    ∀ ds, ds ≠ [] → (∀ c ∈ ds, c.isDigit = true) → ∀ d,
      (read (String.ofList (ds ++ ['k'])) = .ok d ↔
        read (String.ofList (ds ++ ['0', '0', '0'])) = .ok d) ∧
      (read (String.ofList (ds ++ ['M'])) = .ok d ↔
        read (String.ofList (ds ++ ['0', '0', '0', '0', '0', '0'])) = .ok d) := by
  refine ⟨fun text d => read_eq_ok_iff.trans parse?_eq_some_iff, ?_, ?_, ?_⟩
  · intro text fault
    rw [read_eq_error_iff, Option.eq_none_iff_forall_ne_some]
    refine and_congr_right fun _ => ⟨?_, ?_⟩
    · intro unread amount written
      have whole : amount.toUInt64.toNat = amount := Nat.mod_eq_of_lt written.lt
      exact unread ⟨amount.toUInt64⟩ (parse?_eq_some_iff.mpr (whole.symm ▸ written))
    · intro noAmount d read
      exact noAmount _ (parse?_eq_some_iff.mp read)
  · intro n
    rw [read_eq_ok_iff, String.toList_ofList, parse?_digits (Decimal.digits_ne_nil _)
      (fun _ => Decimal.isDigit_of_mem_digits), Decimal.value_digits, if_pos n.toNat_lt]
    simp
  · intro ds nonempty digits d
    have thousands : ("k", 10 ^ 3) ∈ suffixes := by decide
    have millions : ("M", 10 ^ 6) ∈ suffixes := by decide
    have short : parse? (ds ++ ['k']) = parse? (ds ++ ['0', '0', '0']) := by
      simpa using parse?_zeros 3 thousands nonempty digits
    have long : parse? (ds ++ ['M']) = parse? (ds ++ ['0', '0', '0', '0', '0', '0']) := by
      simpa using parse?_zeros 6 millions nonempty digits
    simp only [read_eq_ok_iff, String.toList_ofList, short, long, and_self]

theorem dollarSize_of_padded_thousands :
    read (String.ofList (['0', '7'] ++ ['k'])) = .ok ⟨7000⟩ ∧
      read (String.ofList (Decimal.digits (18446744073709551615 : UInt64).toNat)) =
        .ok ⟨18446744073709551615⟩ := by
  refine ⟨?_, dollarSize_grammar.2.2.1 _⟩
  exact (dollarSize_grammar.2.2.2 ['0', '7'] (by simp)
    (List.all_eq_true.mp rfl) ⟨7000⟩).1.mpr rfl

example : read "18446744073709552k" = .error (.dollarSize "18446744073709552k") := rfl

end TradeBars.DollarSize
