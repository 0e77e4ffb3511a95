import TradeBars.Proofs.Payload.Outcome
import TradeBars.Proofs.Payload.Texts

/-! Which tables of aliases are of any use: for which of them there is a payload that holds a
trade. The keys may be any, even one for several fields, as long as one value can be read in each
way that is asked of it. -/
namespace TradeBars

namespace Payload

variable {v : Json} {field : String} {a : Aliases}

theorem trade_eq_ok_iff {t : Trade Float} : trade a v = .ok t ↔
    timestamp v a.timestamp a.unit = .ok t.timestamp ∧ number v a.price = .ok t.price ∧
      number v a.qty = .ok t.qty ∧ side v a = .ok t.side ∧ symbol v a.symbol = .ok t.symbol := by
  unfold trade
  constructor
  · intro read
    obtain ⟨time, isTime, read⟩ := exists_of_bind read
    obtain ⟨price, isPrice, read⟩ := exists_of_bind read
    obtain ⟨qty, isQty, read⟩ := exists_of_bind read
    obtain ⟨side, isSide, read⟩ := exists_of_bind read
    obtain ⟨name, isName, read⟩ := exists_of_bind read
    cases read
    exact ⟨isTime, isPrice, isQty, isSide, isName⟩
  · rintro ⟨isTime, isPrice, isQty, isSide, isName⟩
    rw [isTime, isPrice, isQty, isSide, isName]
    rfl

/-- What can be read as a timestamp, though some numbers are out of range. -/
inductive TimeLike : Json → Prop where
  | num (n : Json.Number) : TimeLike (.num n)
  | date {s : String} {t : Instant} : Instant.read? (Text.strip s.toList) = some t →
      TimeLike (.str s)

/-- What can be read as a price or a quantity. -/
inductive NumberLike : Json → Prop where
  | num (n : Json.Number) : NumberLike (.num n)
  | text {s : String} {x : Float} : Decimal.finite? (Text.strip s.toList) = some x →
      NumberLike (.str s)

theorem timeLike_of_timestamp {unit : TimestampUnit} {time : Int}
    (read : timestamp v field unit = .ok time) :
    ∃ value, v.get? field = some value ∧ TimeLike value := by
  obtain ⟨value, found, stands⟩ := judged_ok_iff.mp ((timestamp_eq_iff _ _ _ _).mp read)
  refine ⟨value, found, ?_⟩
  cases stands with
  | whole | float => exact .num _
  | date date => exact .date date

theorem numberLike_of_number {x : Float} (read : number v field = .ok x) :
    ∃ value, v.get? field = some value ∧ NumberLike value := by
  obtain ⟨value, found, stands⟩ := judged_ok_iff.mp ((number_eq_iff _ _ _).mp read)
  refine ⟨value, found, ?_⟩
  cases stands with
  | num n => exact .num n
  | text numeral => exact .text numeral

theorem get?_of_symbol {name : String} (read : symbol v field = .ok name) :
    v.get? field = some (.str name) :=
  symbolJudged_ok_iff.mp ((symbol_eq_iff _ _ _).mp read)

/-- What can be read as one of the three amounts, by which a trade is anything but a side. -/
def Amount (value : Json) : Prop := TimeLike value ∨ NumberLike value

theorem Amount.not_null {value : Json} (amount : Amount value) : value ≠ .null := by
  obtain (_ | _) | (_ | _) := amount <;> nofun

theorem Amount.not_word {value : Json} (amount : Amount value) (side : Side) :
    ¬ WordOf value side := by
  intro word
  cases value with
  | str s =>
    obtain ⟨noDate, noNumber⟩ := unread_of_word ((wordSide?_eq_some_iff _ _).mpr word)
    obtain (_ | date) | (_ | numeral) := amount
    · rw [noDate] at date
      contradiction
    · rw [noNumber] at numeral
      contradiction
  | null | bool | num | arr | obj | unpaired => contradiction

theorem Amount.not_flag {value : Json} (amount : Amount value) (side : Side) :
    ¬ FlagOf value side := by
  obtain (_ | _) | (_ | _) := amount <;> nofun

theorem not_timeLike_and_numberLike {s : String} (time : TimeLike (.str s))
    (number : NumberLike (.str s)) : False := by
  obtain _ | date := time
  obtain _ | numeral := number
  rw [Decimal.finite?_of_date date] at numeral
  contradiction

end Payload

namespace Aliases

/-- What gives the side is not under the key of an amount, nor is it a flag under the key of the
symbol. -/
def SideApart (a : Aliases) : Prop :=
  match a.side, a.maker with
  | some key, _ => key ∉ [a.timestamp, a.price, a.qty]
  | none, some key => key ∉ [a.timestamp, a.price, a.qty, a.symbol]
  | none, none => False

/-- Tables whose keys leave room for a trade. The value under the symbol is text, which is not
both a date and a number. -/
def Servable (a : Aliases) : Prop :=
  ¬ (a.timestamp = a.symbol ∧ (a.price = a.symbol ∨ a.qty = a.symbol)) ∧ a.SideApart

variable {a : Aliases} {key : String}

theorem sideApart_of_word (word : a.side = some key) :
    a.SideApart ↔ key ∉ [a.timestamp, a.price, a.qty] := by
  rw [SideApart, word]

theorem sideApart_of_flag (noWord : a.side = none) (flag : a.maker = some key) :
    a.SideApart ↔ key ∉ [a.timestamp, a.price, a.qty, a.symbol] := by
  rw [SideApart, noWord, flag]

theorem not_sideApart (noWord : a.side = none) (noFlag : a.maker = none) : ¬ a.SideApart := by
  rw [SideApart, noWord, noFlag]
  exact id

instance (a : Aliases) : Decidable a.SideApart :=
  match word : a.side, flag : a.maker with
  | some _, _ => decidable_of_iff' _ (sideApart_of_word word)
  | none, some _ => decidable_of_iff' _ (sideApart_of_flag word flag)
  | none, none => .isFalse (not_sideApart word flag)

instance (a : Aliases) : Decidable a.Servable := inferInstanceAs (Decidable (_ ∧ _))

end Aliases

namespace Payload

variable {v : Json} {a : Aliases}

section Trade

variable {t : Trade Float} (read : trade a v = .ok t)
include read

theorem amount_of_trade {key : String} (member : key ∈ [a.timestamp, a.price, a.qty]) :
    ∃ value, v.get? key = some value ∧ Amount value := by
  obtain ⟨time, price, qty, -, -⟩ := trade_eq_ok_iff.mp read
  obtain ⟨value, found, isTime⟩ := timeLike_of_timestamp time
  obtain ⟨value', found', isPrice⟩ := numberLike_of_number price
  obtain ⟨value'', found'', isQty⟩ := numberLike_of_number qty
  simp only [List.mem_cons, List.not_mem_nil, or_false] at member
  rcases member with rfl | rfl | rfl
  · exact ⟨value, found, .inl isTime⟩
  · exact ⟨value', found', .inr isPrice⟩
  · exact ⟨value'', found'', .inr isQty⟩

/-- The symbol is not the time and a number as well. -/
theorem symbol_apart_of_trade :
    ¬ (a.timestamp = a.symbol ∧ (a.price = a.symbol ∨ a.qty = a.symbol)) := by
  rintro ⟨sameTime, other⟩
  obtain ⟨time, price, qty, -, symbol⟩ := trade_eq_ok_iff.mp read
  have name := get?_of_symbol symbol
  obtain ⟨value, found, isTime⟩ := timeLike_of_timestamp time
  obtain ⟨value', found', isNumber⟩ : ∃ value, v.get? a.symbol = some value ∧ NumberLike value := by
    rcases other with same | same
    · exact same ▸ numberLike_of_number price
    · exact same ▸ numberLike_of_number qty
  rw [sameTime, name] at found
  cases found
  cases name.symm.trans found'
  exact not_timeLike_and_numberLike isTime isNumber

theorem sideApart_of_trade : a.SideApart := by
  obtain ⟨-, -, -, side, symbol⟩ := trade_eq_ok_iff.mp read
  obtain ⟨key, value, side, isWord, found, word⟩ | ⟨noWord, key, value, side, isFlag, found, flag⟩ :=
    (exists_sideJudged_iff a v).mp ⟨_, (side_eq_iff a v _).mp side⟩
  · rw [Aliases.sideApart_of_word isWord]
    intro member
    obtain ⟨value', found', amount⟩ := amount_of_trade read member
    cases found.symm.trans found'
    exact amount.not_word side word
  · cases isWord : a.side with
    | some key' =>
      rw [Aliases.sideApart_of_word isWord]
      intro member
      obtain ⟨value', found', amount⟩ := amount_of_trade read member
      rcases noWord key' isWord with absent | null
      · cases absent.symm.trans found'
      · cases null.symm.trans found'
        exact amount.not_null rfl
    | none =>
      rw [Aliases.sideApart_of_flag isWord isFlag]
      intro member
      obtain member | name := List.mem_append.mp
        (show key ∈ [a.timestamp, a.price, a.qty] ++ [a.symbol] from member)
      · obtain ⟨value', found', amount⟩ := amount_of_trade read member
        cases found.symm.trans found'
        exact amount.not_flag side flag
      · rw [List.mem_singleton.mp name, get?_of_symbol symbol] at found
        cases found
        contradiction

theorem servable_of_trade : a.Servable :=
  ⟨symbol_apart_of_trade read, sideApart_of_trade read⟩

end Trade

section Sample

/-- One value for each key, which can be read in each way that a servable table asks for. -/
def sampleValue (a : Aliases) (key : String) : Json :=
  if a.side = some key then .str "buy"
  else if a.side = none ∧ a.maker = some key then .bool true
  else if a.symbol = key then .str (if a.timestamp = key then "2021-01-01" else "1")
  else .num (.int 1)

def sample (a : Aliases) : Json :=
  let keys := [a.timestamp, a.price, a.qty, a.symbol] ++ a.side.toList ++ a.maker.toList
  .obj (keys.map fun key => (key, sampleValue a key))

theorem lookup_map_pair {β : Type} (f : String → β) (keys : List String) (key : String) :
    (keys.map fun k => (k, f k)).lookup key = if key ∈ keys then some (f key) else none := by
  induction keys with
  | nil => rfl
  | cons k keys ih =>
    by_cases same : key = k
    · simp [same]
    · simp [List.lookup, same, ih, beq_false_of_ne same]

theorem get?_sample (key : String)
    (member : key ∈ [a.timestamp, a.price, a.qty, a.symbol] ++ a.side.toList ++ a.maker.toList) :
    (sample a).get? key = some (sampleValue a key) := by
  rw [sample, Json.get?, ← List.map_reverse, lookup_map_pair, if_pos (List.mem_reverse.mpr member)]

theorem sampleValue_of_amount (servable : a.Servable) {key : String}
    (member : key ∈ [a.timestamp, a.price, a.qty]) :
    sampleValue a key = if a.symbol = key then
      .str (if a.timestamp = key then "2021-01-01" else "1") else .num (.int 1) := by
  have noWord : a.side ≠ some key := by
    intro isWord
    exact (Aliases.sideApart_of_word isWord).mp servable.2 member
  have noFlag : ¬ (a.side = none ∧ a.maker = some key) := by
    rintro ⟨noWord, isFlag⟩
    exact (Aliases.sideApart_of_flag noWord isFlag).mp servable.2
      (List.mem_append_left [a.symbol] member)
  rw [sampleValue, if_neg noWord, if_neg noFlag]

theorem timestamp_sample (servable : a.Servable) :
    ∃ time, timestamp (sample a) a.timestamp a.unit = .ok time := by
  have found := get?_sample (a := a) a.timestamp (by simp)
  rw [sampleValue_of_amount servable (by simp)] at found
  unfold timestamp
  rw [found]
  by_cases same : a.symbol = a.timestamp
  · have date : Instant.read? (Text.strip "2021-01-01".toList) = some ⟨1609459200, 0⟩ := by decide
    rw [if_pos same, if_pos rfl]
    simp only [date]
    exact ⟨_, rfl⟩
  · rw [if_neg same]
    exact ⟨_, rfl⟩

theorem number_sample (servable : a.Servable) {field : String} (member : field ∈ [a.price, a.qty]) :
    ∃ x, number (sample a) field = .ok x := by
  have amount : field ∈ [a.timestamp, a.price, a.qty] := List.mem_cons_of_mem _ member
  have found := get?_sample (a := a) field (List.mem_append_left _ (List.mem_append_left _
    (List.mem_append_left [a.symbol] amount)))
  rw [sampleValue_of_amount servable amount] at found
  unfold number
  rw [found]
  by_cases same : a.symbol = field
  · have text : (Decimal.finite? (Text.strip "1".toList)).isSome = true := by decide
    obtain ⟨x, one⟩ := Option.isSome_iff_exists.mp text
    have other : a.timestamp ≠ field := by
      rintro rfl
      apply servable.1
      rcases List.mem_cons.mp member with price | qty
      · exact ⟨same.symm, .inl (price.symm.trans same.symm)⟩
      · exact ⟨same.symm, .inr ((List.mem_singleton.mp qty).symm.trans same.symm)⟩
    rw [if_pos same, if_neg other]
    simp only [one]
    exact ⟨_, rfl⟩
  · rw [if_neg same]
    exact ⟨_, rfl⟩

theorem symbol_sample (servable : a.Servable) :
    ∃ name, symbol (sample a) a.symbol = .ok name := by
  have found := get?_sample (a := a) a.symbol (by simp)
  have noFlag : ¬ (a.side = none ∧ a.maker = some a.symbol) := by
    rintro ⟨noWord, isFlag⟩
    exact (Aliases.sideApart_of_flag noWord isFlag).mp servable.2 (by simp)
  rw [sampleValue, if_neg noFlag, if_pos rfl] at found
  unfold symbol
  rw [found]
  by_cases word : a.side = some a.symbol
  · rw [if_pos word]
    exact ⟨_, rfl⟩
  · rw [if_neg word]
    exact ⟨_, rfl⟩

theorem side_sample (servable : a.Servable) : side (sample a) a = .ok .buy := by
  rw [side_eq_iff]
  cases isSide : a.side with
  | some key =>
    have found := get?_sample (a := a) key (by simp [isSide])
    rw [sampleValue, if_pos isSide] at found
    exact .word (.read isSide found (.word rfl))
  | none =>
    cases isMaker : a.maker with
    | some key =>
      have found := get?_sample (a := a) key (by simp [isSide, isMaker])
      rw [sampleValue, if_neg (by simp [isSide]), if_pos ⟨isSide, isMaker⟩] at found
      have silent : Silent (sample a) a.side := by simp [Silent, isSide]
      exact .flag (.silent silent) (.read isMaker found .set)
    | none => exact absurd servable.2 (Aliases.not_sideApart isSide isMaker)

end Sample

/-- A table is of use exactly if its keys leave room for a trade. -/
theorem exists_trade_iff : (∃ v t, trade a v = .ok t) ↔ a.Servable := by
  constructor
  · rintro ⟨v, t, read⟩
    exact servable_of_trade read
  · intro servable
    obtain ⟨time, readTime⟩ := timestamp_sample servable
    obtain ⟨price, readPrice⟩ := number_sample servable List.mem_cons_self
    obtain ⟨qty, readQty⟩ := number_sample servable
      (List.mem_cons_of_mem _ List.mem_cons_self)
    obtain ⟨name, readName⟩ := symbol_sample servable
    exact ⟨sample a, ⟨time, price, qty, .buy, name⟩,
      trade_eq_ok_iff.mpr ⟨readTime, readPrice, readQty, side_sample servable, readName⟩⟩

end Payload

end TradeBars
