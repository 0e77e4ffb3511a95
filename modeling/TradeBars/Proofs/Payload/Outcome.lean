import TradeBars.Proofs.Outcomes
import TradeBars.Proofs.Payload.Values

/-! What a payload comes to: the trade that it describes, or the fault of the first field that has
one. The faults are told apart by the value that a field has: nothing, what counts as nothing, and
what stands for something else. Main statement: reading a payload is just this. -/
namespace TradeBars

/-- The keys under which a payload is looked at. -/
def Aliases.keys (a : Aliases) : List String :=
  [a.timestamp, a.price, a.qty, a.symbol] ++ a.side.toList ++ a.maker.toList

namespace Payload

section Fields

variable {β : Type}

/-- How a field is judged by its value, if it has one: what counts as none, what stands for what,
and what is wrong with the others. -/
inductive Judged (lacks : Json → Prop) (stands : Json → β → Prop)
    (wrong : String → String → Rejection) (field : String) :
    Option Json → Except Rejection β → Prop where
  | absent : Judged lacks stands wrong field none (.error (.missingField field))
  | lacking {value : Json} : lacks value →
      Judged lacks stands wrong field (some value) (.error (.missingField field))
  | wrong {value : Json} : ¬ lacks value → (∀ x, ¬ stands value x) →
      Judged lacks stands wrong field (some value) (.error (wrong field value.text))
  | read {value : Json} {x : β} : stands value x →
      Judged lacks stands wrong field (some value) (.ok x)

/-- Nothing but null under an alias, or no alias. -/
def Silent (v : Json) (key : Option String) : Prop :=
  ∀ field, key = some field → v.get? field = none ∨ v.get? field = some .null

/-- How what is under an alias for the side is judged. -/
inductive Named (v : Json) (key : Option String) (stands : Json → Side → Prop) :
    Except Rejection (Option Side) → Prop where
  | silent : Silent v key → Named v key stands (.ok none)
  | read {field : String} {value : Json} {side : Side} : key = some field →
      v.get? field = some value → stands value side → Named v key stands (.ok (some side))
  | wrong {field : String} {value : Json} : key = some field → v.get? field = some value →
      value ≠ .null → (∀ side, ¬ stands value side) →
      Named v key stands (.error (.invalidSide field value.text))

/-- How the side is judged: by the word where there is one, and else by the flag. -/
inductive SideJudged (a : Aliases) (v : Json) : Except Rejection Side → Prop where
  | word {side : Side} : Named v a.side WordOf (.ok (some side)) → SideJudged a v (.ok side)
  | wrongWord {fault : Rejection} : Named v a.side WordOf (.error fault) →
      SideJudged a v (.error fault)
  | flag {side : Side} : Named v a.side WordOf (.ok none) →
      Named v a.maker FlagOf (.ok (some side)) → SideJudged a v (.ok side)
  | wrongFlag {fault : Rejection} : Named v a.side WordOf (.ok none) →
      Named v a.maker FlagOf (.error fault) → SideJudged a v (.error fault)
  | neither : Named v a.side WordOf (.ok none) → Named v a.maker FlagOf (.ok none) →
      SideJudged a v (.error .sideUndetermined)

inductive SymbolJudged (field : String) : Option Json → Except Rejection String → Prop where
  | text (s : String) : SymbolJudged field (some (.str s)) (.ok s)
  | wrong {found : Option Json} : (∀ s, found ≠ some (.str s)) →
      SymbolJudged field found (.error (.invalidSymbol field))

end Fields

section Outcome

variable (a : Aliases) (v : Json)

def TimeJudged : Except Rejection Int → Prop :=
  Judged NoTime (TimeOf a.unit) .unparseable a.timestamp (v.get? a.timestamp)

def NumberJudged (field : String) : Except Rejection Float → Prop :=
  Judged NoNumber NumberOf .nonNumeric field (v.get? field)

/-- The trade, or the fault of the first field that has one, in the order in which the fields
stand here. -/
def Outcome : Except Rejection (Trade Float) → Prop :=
  Then (TimeJudged a v) fun time =>
  Then (NumberJudged v a.price) fun price =>
  Then (NumberJudged v a.qty) fun qty =>
  Then (SideJudged a v) fun side =>
  Then (SymbolJudged a.symbol (v.get? a.symbol)) fun symbol result =>
    .ok ⟨time, price, qty, side, symbol⟩ = result

end Outcome

section Judgement

variable {β : Type} {lacks : Json → Prop} {stands : Json → β → Prop}
  {wrong : String → String → Rejection} {field : String}

/-- A result that agrees with each case is judged by what there is. -/
theorem judged_iff {found : Option Json} {made : Except Rejection β}
    (ifAbsent : found = none → made = .error (.missingField field))
    (ifLacking : ∀ value, found = some value → lacks value → made = .error (.missingField field))
    (ifRead : ∀ value x, found = some value → stands value x → made = .ok x)
    (ifWrong : ∀ value, found = some value → ¬ lacks value → (∀ x, ¬ stands value x) →
      made = .error (wrong field value.text)) (r : Except Rejection β) :
    made = r ↔ Judged lacks stands wrong field found r := by
  constructor
  · rintro rfl
    cases found with
    | none => exact ifAbsent rfl ▸ .absent
    | some value =>
      by_cases lacking : lacks value
      · exact ifLacking value rfl lacking ▸ .lacking lacking
      · by_cases stood : ∃ x, stands value x
        · obtain ⟨x, read⟩ := stood
          exact ifRead value x rfl read ▸ .read read
        · have unread := not_exists.mp stood
          exact ifWrong value rfl lacking unread ▸ .wrong lacking unread
  · intro judged
    cases judged with
    | absent => exact ifAbsent rfl
    | lacking lacking => exact ifLacking _ rfl lacking
    | wrong notLacking unread => exact ifWrong _ rfl notLacking unread
    | read read => exact ifRead _ _ rfl read

theorem judged_ok_iff {found : Option Json} {x : β} :
    Judged lacks stands wrong field found (.ok x) ↔
      ∃ value, found = some value ∧ stands value x := by
  constructor
  · rintro (_ | _ | _ | read)
    exact ⟨_, rfl, read⟩
  · rintro ⟨value, rfl, read⟩
    exact .read read

theorem symbolJudged_ok_iff {found : Option Json} {name : String} :
    SymbolJudged field found (.ok name) ↔ found = some (.str name) := by
  constructor
  · rintro ⟨⟩
    rfl
  · rintro rfl
    exact .text name

end Judgement

section Judgements

variable (a : Aliases) (v : Json)

theorem timestamp_eq_iff (field : String) (unit : TimestampUnit) (r : Except Rejection Int) :
    timestamp v field unit = r ↔
      Judged NoTime (TimeOf unit) .unparseable field (v.get? field) r := by
  apply judged_iff
  · intro absent
    simp only [timestamp, absent]
  · exact fun value found => timestamp_of_noTime found
  · exact fun value x found => timestamp_of_timeOf found
  · exact fun value found => timestamp_of_wrong found

theorem number_eq_iff (field : String) (r : Except Rejection Float) :
    number v field = r ↔ NumberJudged v field r := by
  apply judged_iff
  · intro absent
    simp only [number, absent]
  · exact fun value found => number_of_noNumber found
  · exact fun value x found => number_of_numberOf found
  · exact fun value found => number_of_wrong found

section Alias

variable {v : Json} {key : Option String} {field : String} {value : Json}
  {side? : Json → Option Side}

theorem sideUnder_of_silent (silent : Silent v key) : sideUnder v key side? = .ok none := by
  cases key with
  | none => rfl
  | some field => rcases silent field rfl with found | found <;> simp only [sideUnder, found]

theorem sideUnder_of_read {side : Side} (found : v.get? field = some value)
    (notNull : value ≠ .null) (read : side? value = some side) :
    sideUnder v (some field) side? = .ok (some side) := by
  cases value with
  | null => contradiction
  | bool | num | str | arr | obj | unpaired => simp only [sideUnder, found, read]

theorem sideUnder_of_unread (found : v.get? field = some value) (notNull : value ≠ .null)
    (unread : side? value = none) :
    sideUnder v (some field) side? = .error (.invalidSide field value.text) := by
  cases value with
  | null => contradiction
  | bool | num | str | arr | obj | unpaired => simp only [sideUnder, found, unread]

end Alias

theorem sideUnder_congr {v w : Json} {key : Option String}
    (same : ∀ field, key = some field → w.get? field = v.get? field) (side? : Json → Option Side) :
    sideUnder w key side? = sideUnder v key side? := by
  cases key with
  | none => rfl
  | some field => simp only [sideUnder, same field rfl]

theorem sideUnder_eq_iff {side? : Json → Option Side} {stands : Json → Side → Prop}
    (reads : ∀ value side, side? value = some side ↔ stands value side)
    (null : side? .null = none) (key : Option String) (r : Except Rejection (Option Side)) :
    sideUnder v key side? = r ↔ Named v key stands r := by
  constructor
  · rintro rfl
    by_cases silent : Silent v key
    · exact sideUnder_of_silent silent ▸ .silent silent
    · simp only [Silent, not_forall, not_or] at silent
      obtain ⟨field, rfl, present, notNull⟩ := silent
      obtain ⟨value, found⟩ := Option.ne_none_iff_exists'.mp present
      have notNull : value ≠ .null := fun null => notNull (null ▸ found)
      cases read : side? value with
      | some side =>
        rw [sideUnder_of_read found notNull read]
        exact .read rfl found ((reads _ _).mp read)
      | none =>
        rw [sideUnder_of_unread found notNull read]
        refine .wrong rfl found notNull fun side stands => ?_
        rw [← reads, read] at stands
        contradiction
  · intro named
    cases named with
    | silent silent => exact sideUnder_of_silent silent
    | @read field value side isKey found stands =>
      rw [← reads] at stands
      have notNull : value ≠ .null := by
        rintro rfl
        rw [null] at stands
        contradiction
      rw [isKey, sideUnder_of_read found notNull stands]
    | @wrong field value isKey found notNull stoodForNone =>
      have unread : side? value = none := by
        rw [Option.eq_none_iff_forall_ne_some]
        exact fun side read => stoodForNone side ((reads _ _).mp read)
      rw [isKey, sideUnder_of_unread found notNull unread]

theorem side_eq_iff (r : Except Rejection Side) : side v a = r ↔ SideJudged a v r := by
  have word := sideUnder_eq_iff v wordSide?_eq_some_iff rfl a.side
  have flag := sideUnder_eq_iff v flagSide?_eq_some_iff rfl a.maker
  unfold side
  constructor
  · rintro rfl
    cases isWord : sideUnder v a.side wordSide? with
    | error fault => exact .wrongWord ((word _).mp isWord)
    | ok named =>
      cases named with
      | some side => exact .word ((word _).mp isWord)
      | none =>
        cases isFlag : sideUnder v a.maker flagSide? with
        | error fault => exact .wrongFlag ((word _).mp isWord) ((flag _).mp isFlag)
        | ok named =>
          cases named with
          | some side => exact .flag ((word _).mp isWord) ((flag _).mp isFlag)
          | none => exact .neither ((word _).mp isWord) ((flag _).mp isFlag)
  · intro judged
    cases judged with
    | word named => rw [(word _).mpr named]; rfl
    | wrongWord named => rw [(word _).mpr named]; rfl
    | flag silent named => rw [(word _).mpr silent, (flag _).mpr named]; rfl
    | wrongFlag silent named => rw [(word _).mpr silent, (flag _).mpr named]; rfl
    | neither silent still => rw [(word _).mpr silent, (flag _).mpr still]; rfl

theorem symbol_eq_iff (field : String) (r : Except Rejection String) :
    symbol v field = r ↔ SymbolJudged field (v.get? field) r := by
  unfold symbol
  constructor
  · rintro rfl
    split
    · next s found => exact found ▸ .text s
    · next other => exact .wrong fun s found => other s found
  · intro judged
    generalize v.get? field = found at judged
    cases judged with
    | text s => rfl
    | wrong other =>
      split
      · next s => exact absurd rfl (other s)
      · rfl

end Judgements

section Trade

variable (a : Aliases) (v : Json)

theorem trade_eq_iff (result : Except Rejection (Trade Float)) :
    trade a v = result ↔ Outcome a v result := by
  refine bind_eq_iff (timestamp_eq_iff v a.timestamp a.unit) (fun time => ?_) result
  refine bind_eq_iff (number_eq_iff v a.price) fun price => ?_
  refine bind_eq_iff (number_eq_iff v a.qty) fun qty => ?_
  refine bind_eq_iff (side_eq_iff a v) fun side => ?_
  exact bind_eq_iff (symbol_eq_iff v a.symbol) fun symbol _ => Iff.rfl

/-- What gives the side: a word, or a flag where there is no word. -/
def HasSide : Prop :=
  (∃ field value side, a.side = some field ∧ v.get? field = some value ∧ WordOf value side) ∨
    Silent v a.side ∧
      ∃ field value side, a.maker = some field ∧ v.get? field = some value ∧ FlagOf value side

theorem exists_sideJudged_iff : (∃ side, SideJudged a v (.ok side)) ↔ HasSide a v := by
  constructor
  · rintro ⟨side, word | _ | ⟨silent, flag⟩⟩
    · obtain _ | ⟨isKey, found, stands⟩ := word
      exact .inl ⟨_, _, _, isKey, found, stands⟩
    · obtain ⟨silent⟩ := silent
      obtain _ | ⟨isKey, found, stands⟩ := flag
      exact .inr ⟨silent, _, _, _, isKey, found, stands⟩
  · rintro (⟨field, value, side, isKey, found, stands⟩ |
      ⟨silent, field, value, side, isKey, found, stands⟩)
    · exact ⟨side, .word (.read isKey found stands)⟩
    · exact ⟨side, .flag (.silent silent) (.read isKey found stands)⟩

theorem exists_trade_of_payload_iff : (∃ t, trade a v = .ok t) ↔
    (∃ value time, v.get? a.timestamp = some value ∧ TimeOf a.unit value time) ∧
      (∃ value price, v.get? a.price = some value ∧ NumberOf value price) ∧
      (∃ value qty, v.get? a.qty = some value ∧ NumberOf value qty) ∧
      HasSide a v ∧ ∃ name, v.get? a.symbol = some (.str name) := by
  rw [← exists_sideJudged_iff]
  simp only [trade_eq_iff, Outcome, Then.ok_iff, TimeJudged, NumberJudged, judged_ok_iff]
  constructor
  · rintro ⟨t, time, isTime, price, isPrice, qty, isQty, side, isSide, name, isName, -⟩
    refine ⟨?_, ?_, ?_, ⟨side, isSide⟩, name, ?_⟩
    · exact isTime.imp fun _ stands => ⟨time, stands⟩
    · exact isPrice.imp fun _ stands => ⟨price, stands⟩
    · exact isQty.imp fun _ stands => ⟨qty, stands⟩
    · exact symbolJudged_ok_iff.mp isName
  · rintro ⟨⟨_, time, isTime⟩, ⟨_, price, isPrice⟩, ⟨_, qty, isQty⟩, ⟨side, isSide⟩, name, isName⟩
    exact ⟨_, time, ⟨_, isTime⟩, price, ⟨_, isPrice⟩, qty, ⟨_, isQty⟩, side, isSide, name,
      symbolJudged_ok_iff.mpr isName, rfl⟩

variable {v} in
/-- What is under other keys does not matter. -/
theorem trade_congr {w : Json} (same : ∀ key ∈ a.keys, w.get? key = v.get? key) :
    trade a w = trade a v := by
  simp only [Aliases.keys, List.forall_mem_append, List.forall_mem_cons, Option.mem_toList] at same
  obtain ⟨⟨⟨time, price, qty, name, -⟩, word⟩, flag⟩ := same
  simp only [trade, timestamp, number, side, symbol, time, price, qty, name,
    sideUnder_congr word wordSide?, sideUnder_congr flag flagSide?]

/-- A payload gives its outcome and no other. There is a trade exactly if five conditions hold, each
on one field, and the outcome is a matter of what is under the keys of the table. -/
theorem trade_outcome :
    (∀ result, trade a v = result ↔ Outcome a v result) ∧
      ((∃ t, trade a v = .ok t) ↔
        (∃ value time, v.get? a.timestamp = some value ∧ TimeOf a.unit value time) ∧
        (∃ value price, v.get? a.price = some value ∧ NumberOf value price) ∧
        (∃ value qty, v.get? a.qty = some value ∧ NumberOf value qty) ∧
        HasSide a v ∧ ∃ name, v.get? a.symbol = some (.str name)) ∧
      ∀ w, (∀ key ∈ a.keys, w.get? key = v.get? key) → trade a w = trade a v :=
  ⟨trade_eq_iff a v, exists_trade_of_payload_iff a v, fun _ => trade_congr a⟩

theorem trade_outcome_shared :
    let a : Aliases := ⟨"x", "x", "x", "s", some "s", none, .milliseconds⟩
    let v : Json := .obj [("x", .num (.int (-1))), ("s", .str "BUY")]
    let w : Json := .obj [("s", .str "BUY"), ("y", .null), ("x", .num (.int (-1)))]
    (∀ key ∈ a.keys, w.get? key = v.get? key) ∧ trade a w = trade a v ∧ ∃ t, trade a v = .ok t := by
  intro a v w
  have same : ∀ key ∈ a.keys, w.get? key = v.get? key := by
    simp only [Aliases.keys, List.forall_mem_append, List.forall_mem_cons, Option.mem_toList]
    refine ⟨⟨⟨rfl, rfl, rfl, rfl, nofun⟩, ?_⟩, nofun⟩
    rintro _ ⟨⟩
    rfl
  obtain ⟨-, accepted, others⟩ := trade_outcome a v
  refine ⟨same, others w same, accepted.mpr ⟨?_, ?_, ?_, ?_, ?_⟩⟩
  · exact ⟨_, _, rfl, .whole (by decide) (by decide) (by decide)⟩
  · exact ⟨_, _, rfl, .num _⟩
  · exact ⟨_, _, rfl, .num _⟩
  · exact .inl ⟨"s", _, .buy, rfl, rfl, .word rfl⟩
  · exact ⟨"BUY", rfl⟩

end Trade

end Payload

end TradeBars
