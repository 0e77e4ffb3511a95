import TradeBars.Config.Record
import TradeBars.Proofs.Config.Validity
import TradeBars.Proofs.Outcomes
import TradeBars.Proofs.Payload.Tables

/-! The table of aliases that a JSON text leads to. Loose options must name a key for the side of a
trade, but a text need not, and then no payload holds a trade. -/
namespace TradeBars

/-- Whether a field that may be absent or null is so. -/
def Json.LeftOut (field : Option Json) : Prop := field = none ∨ field = some .null

theorem Json.nullable_eq_none_iff {α : Type} {decode : Json → Option α} {field : Option Json}
    {value : Option α} (read : nullable decode field = some value) :
    value = none ↔ LeftOut field := by
  unfold nullable at read
  split at read
  · cases read
    exact iff_of_true rfl (.inl rfl)
  · cases read
    exact iff_of_true rfl (.inr rfl)
  · next v noNull =>
    obtain ⟨decoded, -, rfl⟩ := Option.map_eq_some_iff.mp read
    refine iff_of_false nofun ?_
    rintro (absent | null)
    · contradiction
    · exact noNull (Option.some.inj null)

namespace Aliases

/-- A key for the side is unset exactly where the record leaves it out. -/
theorem sides_of_ofJson? {v : Json} {a : Aliases} (read : ofJson? v = some a) :
    ∃ timestamp price qty symbol side maker unit,
      v.fields? fieldNames 3 = some [timestamp, price, qty, symbol, side, maker, unit] ∧
        (a.side = none ↔ Json.LeftOut side) ∧ (a.maker = none ↔ Json.LeftOut maker) := by
  unfold ofJson? at read
  obtain ⟨fields, found, read⟩ := Option.bind_eq_some_iff.mp read
  split at read
  · obtain ⟨_, -, read⟩ := Option.bind_eq_some_iff.mp read
    obtain ⟨_, -, read⟩ := Option.bind_eq_some_iff.mp read
    obtain ⟨_, -, read⟩ := Option.bind_eq_some_iff.mp read
    obtain ⟨_, -, read⟩ := Option.bind_eq_some_iff.mp read
    obtain ⟨side, isSide, read⟩ := Option.bind_eq_some_iff.mp read
    obtain ⟨maker, isMaker, read⟩ := Option.bind_eq_some_iff.mp read
    obtain ⟨_, -, read⟩ := Option.bind_eq_some_iff.mp read
    cases read
    exact ⟨_, _, _, _, _, _, _, found, Json.nullable_eq_none_iff isSide,
      Json.nullable_eq_none_iff isMaker⟩
  · contradiction

theorem sides_of_ofOptions {options : List (String × String)} {a : Aliases}
    (made : ofOptions options = .ok a) : a.side ≠ none ∨ a.maker ≠ none := by
  unfold ofOptions at made
  obtain ⟨timestamp, -, made⟩ := exists_of_bind made
  obtain ⟨price, -, made⟩ := exists_of_bind made
  obtain ⟨qty, -, made⟩ := exists_of_bind made
  obtain ⟨symbol, -, made⟩ := exists_of_bind made
  -- whichever unit it is, the last step is the same
  extract_lets finish at made
  have named (unit : TimestampUnit) (made : finish unit = .ok a) :
      a.side ≠ none ∨ a.maker ≠ none := by
    simp only [finish] at made
    split at made
    · contradiction
    · next anySide =>
      cases made
      simpa [imp_iff_not_or] using anySide
  split at made
  all_goals
    obtain ⟨unit, -, made⟩ := exists_of_bind made
    exact named unit made

end Aliases

namespace Config

theorem read_of_ofText {text : String} {config : Config} (accepted : ofText text = .ok config) :
    config.fault? = none ∧ ∃ document, Json.read? text = some document ∧
      ofJson? document = some config := by
  unfold ofText decode at accepted
  cases read : Json.read? text >>= ofJson? with
  | none =>
    rw [read] at accepted
    contradiction
  | some decoded =>
    rw [read] at accepted
    obtain ⟨valid, rfl⟩ := validated_eq_ok_iff.mp accepted
    exact ⟨valid, Option.bind_eq_some_iff.mp read⟩

theorem aliases_of_ofJson? {document : Json} {config : Config}
    (read : ofJson? document = some config) :
    ∃ instrument tickBars dollarBars backfill trendAngle aliases,
      document.fields? sectionNames 6 =
        some [instrument, tickBars, dollarBars, backfill, trendAngle, aliases] ∧
      Json.defaulted .binance Aliases.ofJson? aliases = some config.aliases := by
  unfold ofJson? at read
  obtain ⟨sections, found, read⟩ := Option.bind_eq_some_iff.mp read
  split at read
  · obtain ⟨_, -, read⟩ := Option.bind_eq_some_iff.mp read
    obtain ⟨_, -, read⟩ := Option.bind_eq_some_iff.mp read
    obtain ⟨_, -, read⟩ := Option.bind_eq_some_iff.mp read
    obtain ⟨_, -, read⟩ := Option.bind_eq_some_iff.mp read
    obtain ⟨_, -, read⟩ := Option.bind_eq_some_iff.mp read
    obtain ⟨aliases, isTable, read⟩ := Option.bind_eq_some_iff.mp read
    cases read
    exact ⟨_, _, _, _, _, _, found, isTable⟩
  · contradiction

/-- A text leaves both keys for the side unset exactly if it has a table that leaves them out, for
the default names one of them. A table is of use exactly if its keys leave room for a trade. -/
theorem aliases_of_text {text : String} {config : Config} (accepted : ofText text = .ok config) :
    (config.aliases.side = none ∧ config.aliases.maker = none ↔
      ∃ document sections table fields, Json.read? text = some document ∧
        document.fields? sectionNames 6 = some sections ∧ sections[5]? = some (some table) ∧
        table.fields? Aliases.fieldNames 3 = some fields ∧
        ∀ i ∈ [4, 5], ∃ field, fields[i]? = some field ∧ Json.LeftOut field) ∧
    ((∃ payload t, Payload.trade config.aliases payload = .ok t) ↔ config.aliases.Servable) ∧
    (config.aliases.side = none ∧ config.aliases.maker = none →
      ∀ payload t, Payload.trade config.aliases payload ≠ .ok t) ∧
    ∀ options a, Aliases.ofOptions options = .ok a → a.side ≠ none ∨ a.maker ≠ none := by
  obtain ⟨-, document, read, decoded⟩ := read_of_ofText accepted
  obtain ⟨_, _, _, _, _, aliases, sections, isTable⟩ := aliases_of_ofJson? decoded
  refine ⟨?_, Payload.exists_trade_iff, ?_, fun _ _ => Aliases.sides_of_ofOptions⟩
  · constructor
    · rintro ⟨noSide, noMaker⟩
      cases aliases with
      | none =>
        have isDefault : Aliases.binance = config.aliases := Option.some.inj isTable
        rw [← isDefault] at noMaker
        contradiction
      | some table =>
        obtain ⟨_, _, _, _, side, maker, _, fields, isSide, isMaker⟩ :=
          Aliases.sides_of_ofJson? isTable
        refine ⟨_, _, _, _, read, sections, rfl, fields, ?_⟩
        simpa using ⟨isSide.mp noSide, isMaker.mp noMaker⟩
    · rintro ⟨_, _, table, _, read', sections', isLast, fields', leftOut⟩
      cases read.symm.trans read'
      cases sections.symm.trans sections'
      cases isLast
      obtain ⟨_, _, _, _, side, maker, _, fields, isSide, isMaker⟩ :=
        Aliases.sides_of_ofJson? isTable
      cases fields.symm.trans fields'
      rw [isSide, isMaker]
      simpa using leftOut
  · rintro ⟨noSide, noMaker⟩ payload t trade
    exact Aliases.not_sideApart noSide noMaker (Payload.sideApart_of_trade trade)

/-- The quantity is under the key of the time, and the side under the key of the symbol: then the
symbol is the word for the side. -/
theorem aliases_of_text_shared :
    let text := "\x7b\"aliases\":[\"t\",\"p\",\"t\",\"s\",\"s\"]\x7d"
    ∃ config, ofText text = .ok config ∧ config.aliases.Servable ∧
      (∃ payload t, Payload.trade config.aliases payload = .ok t) ∧
      ¬ (config.aliases.side = none ∧ config.aliases.maker = none) := by
  intro text
  let shared : Aliases := ⟨"t", "p", "t", "s", some "s", none, .seconds⟩
  have accepted : ofText text = .ok { aliases := shared } := by cbv
  obtain ⟨-, usable, unusable, -⟩ := aliases_of_text accepted
  have servable : shared.Servable := by decide
  obtain ⟨payload, t, trade⟩ := usable.mpr servable
  exact ⟨_, accepted, servable, ⟨payload, t, trade⟩,
    fun neither => unusable neither payload t trade⟩

/-- A text may leave out both keys for the side, and then no payload holds a trade. -/
theorem no_trade_without_sides :
    let text := "\x7b\"aliases\":\x7b\"timestamp\":\"t\",\"price\":\"p\"," ++
      "\"qty\":\"q\",\"symbol\":\"s\"\x7d\x7d"
    ∃ config, ofText text = .ok config ∧ config.aliases.side = none ∧
      config.aliases.maker = none ∧ ∀ payload t, Payload.trade config.aliases payload ≠ .ok t := by
  intro text
  have accepted : ofText text = .ok { aliases := ⟨"t", "p", "q", "s", none, none, .seconds⟩ } := by
    cbv
  refine ⟨_, accepted, rfl, rfl, ?_⟩
  intro payload t trade
  exact Aliases.not_sideApart rfl rfl (Payload.sideApart_of_trade trade)

end Config

end TradeBars
