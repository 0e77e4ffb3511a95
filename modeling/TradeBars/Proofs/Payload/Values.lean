import TradeBars.Payload
import TradeBars.Proofs.Scalar.Value

/-! What the values in a payload stand for, and which of them count as nothing. Reading a field
gives what its value stands for, and gives a fault where that is nothing. -/
namespace TradeBars.Payload

section Values

/-- What counts as no time: a number that is zero in binary64, and text without a character other
than blanks. -/
inductive NoTime : Json → Prop where
  | null : NoTime .null
  | zero {n : Json.Number} : Binary64.value? n.toFloat = some 0 → NoTime (.num n)
  | blank {s : String} : Text.strip s.toList = [] → NoTime (.str s)

/-- The seconds that a value stands for, if numbers count a unit. -/
inductive TimeOf (unit : TimestampUnit) : Json → Int → Prop where
  | whole {i : Int} : i ≠ 0 → -2 ^ 63 ≤ i → i < 2 ^ 63 →
      TimeOf unit (.num (.int i)) (i / unit.perSecond)
  | float {n : Json.Number} {q : ℚ} : Json.int64? (.num n) = none →
      Binary64.value? n.toFloat = some q → q ≠ 0 → |q| < 2 ^ 63 →
      TimeOf unit (.num n) (Binary64.floor (n.toFloat / Binary64.ofInt unit.perSecond))
  | date {s : String} {t : Instant} : Instant.read? (Text.strip s.toList) = some t →
      TimeOf unit (.str s) t.seconds

inductive NoNumber : Json → Prop where
  | null : NoNumber .null
  | empty : NoNumber (.str "")

inductive NumberOf : Json → Float → Prop where
  | num (n : Json.Number) : NumberOf (.num n) n.toFloat
  | text {s : String} {x : Float} : Decimal.finite? (Text.strip s.toList) = some x →
      NumberOf (.str s) x

/-- A word names a side without regard to the case of ASCII letters. -/
inductive WordOf : Json → Side → Prop where
  | word {s : String} {side : Side} : s.toList.map Char.toLower = side.name.toList →
      WordOf (.str s) side

inductive FlagOf : Json → Side → Prop where
  | set : FlagOf (.bool true) .buy
  | unset : FlagOf (.bool false) .sell

end Values

section Time

theorem int64?_eq_some_iff {n : Json.Number} {i : Int} :
    Json.int64? (.num n) = some i ↔ n = .int i ∧ -2 ^ 63 ≤ i ∧ i < 2 ^ 63 := by
  cases n with
  | int j =>
    simp only [Json.int64?, Json.intIn?, Option.ite_none_right_eq_some, Option.some.injEq,
      Json.Number.int.injEq]
    constructor
    · rintro ⟨range, rfl⟩
      exact ⟨rfl, by omega⟩
    · rintro ⟨rfl, range⟩
      exact ⟨by omega, rfl⟩
  | float x => simp [Json.int64?, Json.intIn?]

theorem lt_timestampBound_iff (x : Float) :
    x.abs < timestampBound ↔ ∃ q, Binary64.value? x = some q ∧ |q| < 2 ^ 63 := by
  have isBound : Binary64.value? timestampBound = some (2 ^ 63) := by
    change Binary64.rational? (.finite .positive (2 ^ 52) 11 (by decide)) = _
    norm_num [Binary64.rational?, Float.Model.UnpackedFloat.Sign.apply]
  exact Binary64.abs_lt_iff isBound x

variable {v : Json} {field : String} {unit : TimestampUnit} {value : Json}
  (found : v.get? field = some value)
include found

theorem timestamp_of_noTime (noTime : NoTime value) :
    timestamp v field unit = .error (.missingField field) := by
  unfold timestamp
  cases noTime with
  | null => simp only [found]
  | blank blank => simp only [found, blank, List.isEmpty_nil, if_true]
  | @zero n zero =>
    simp only [found]
    split
    · next i isInt =>
      obtain ⟨rfl, -⟩ := int64?_eq_some_iff.mp isInt
      exact if_pos ((Binary64.value?_ofInt_eq_zero_iff i).mp zero)
    · exact if_pos ((Binary64.value?_eq_zero_iff _).mp zero)

theorem timestamp_of_timeOf {t : Int} (time : TimeOf unit value t) :
    timestamp v field unit = .ok t := by
  unfold timestamp
  cases time with
  | whole nonzero low high =>
    simp only [found, int64?_eq_some_iff.mpr ⟨rfl, low, high⟩, if_neg nonzero]
  | @float n q noInt isValue nonzero small =>
    have notZero : ¬ (n.toFloat == 0) = true := by
      intro zero
      have isZero := (Binary64.value?_eq_zero_iff n.toFloat).mpr zero
      rw [isValue] at isZero
      exact nonzero (Option.some.inj isZero)
    have below := (lt_timestampBound_iff n.toFloat).mpr ⟨q, isValue, small⟩
    simp only [found, noInt, if_neg notZero, if_pos below]
  | @date s t date =>
    have notBlank : Text.strip s.toList ≠ [] := by
      intro blank
      rw [blank] at date
      contradiction
    simp only [found, date, List.isEmpty_iff, if_neg notBlank]

theorem timestamp_of_wrong (hasTime : ¬ NoTime value) (noReading : ∀ t, ¬ TimeOf unit value t) :
    timestamp v field unit = .error (.unparseable field value.text) := by
  unfold timestamp
  cases value with
  | null => exact absurd .null hasTime
  | bool | arr | obj | unpaired => simp only [found]
  | str s =>
    have notBlank : Text.strip s.toList ≠ [] := fun blank => hasTime (.blank blank)
    have noDate : Instant.read? (Text.strip s.toList) = none := by
      rw [Option.eq_none_iff_forall_ne_some]
      exact fun t date => noReading _ (.date date)
    simp only [found, noDate, List.isEmpty_iff, if_neg notBlank]
  | num n =>
    have notZero : ¬ Binary64.value? n.toFloat = some 0 := fun zero => hasTime (.zero zero)
    simp only [found]
    split
    · next i isInt =>
      obtain ⟨rfl, low, high⟩ := int64?_eq_some_iff.mp isInt
      have nonzero := (Binary64.value?_ofInt_eq_zero_iff i).not.mp notZero
      exact absurd (.whole nonzero low high) (noReading _)
    · next noInt =>
      rw [Binary64.value?_eq_zero_iff] at notZero
      have large : ¬ n.toFloat.abs < timestampBound := by
        rw [lt_timestampBound_iff]
        rintro ⟨q, isValue, small⟩
        refine noReading _ (.float noInt isValue ?_ small)
        rintro rfl
        exact hasTime (.zero isValue)
      exact (if_neg notZero).trans (if_neg large)

end Time

section Number

variable {v : Json} {field : String} {value : Json} (found : v.get? field = some value)
include found

theorem number_of_noNumber (noNumber : NoNumber value) :
    number v field = .error (.missingField field) := by
  unfold number
  cases noNumber with
  | null => simp only [found]
  | empty => simp [found]

theorem number_of_numberOf {x : Float} (stands : NumberOf value x) : number v field = .ok x := by
  unfold number
  cases stands with
  | num n => simp only [found]
  | @text s x spelled =>
    have nonempty : ¬ s.isEmpty = true := by
      rw [String.isEmpty_iff]
      rintro rfl
      contradiction
    simp only [found, spelled, if_neg nonempty]

theorem number_of_wrong (hasNumber : ¬ NoNumber value) (noReading : ∀ x, ¬ NumberOf value x) :
    number v field = .error (.nonNumeric field value.text) := by
  unfold number
  cases value with
  | null => exact absurd .null hasNumber
  | bool | arr | obj | unpaired => simp only [found]
  | num n => exact absurd (.num n) (noReading _)
  | str s =>
    have nonempty : ¬ s.isEmpty = true := by
      rw [String.isEmpty_iff]
      rintro rfl
      exact hasNumber .empty
    have unread : Decimal.finite? (Text.strip s.toList) = none := by
      rw [Option.eq_none_iff_forall_ne_some]
      exact fun x spelled => noReading _ (.text spelled)
    simp only [found, unread, if_neg nonempty]

end Number

section Sides

theorem wordSide?_eq_some_iff (value : Json) (side : Side) :
    wordSide? value = some side ↔ WordOf value side := by
  constructor
  · intro read
    cases value with
    | str s =>
      have named : sideOfWord? s = some side := read
      unfold sideOfWord? at named
      dsimp only at named
      constructor
      split at named
      · next buy =>
        cases named
        exact buy
      · split at named
        · next sell =>
          cases named
          exact sell
        · contradiction
    | null | bool | num | arr | obj | unpaired => contradiction
  · rintro ⟨word⟩
    simp only [wordSide?, sideOfWord?, word]
    cases side <;> rfl

theorem flagSide?_eq_some_iff (value : Json) (side : Side) :
    flagSide? value = some side ↔ FlagOf value side := by
  constructor
  · intro read
    unfold flagSide? at read
    split at read
    · cases read
      exact .set
    · cases read
      exact .unset
    · contradiction
  · intro flag
    cases flag <;> rfl

end Sides

end TradeBars.Payload
