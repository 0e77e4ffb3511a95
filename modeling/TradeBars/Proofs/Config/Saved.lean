import TradeBars.Proofs.Config.Record
import TradeBars.Proofs.Config.Validity
import TradeBars.Proofs.Json.RoundTrip

/-! Settings that are saved and loaded again. Sections may be taken out of what was saved; they
have their defaults then, and settings without a fault stay without one. -/
namespace TradeBars
open Json

namespace Json

/-- A document without the members of the given names. -/
def without (names : List String) : Json → Json
  | .obj members => .obj (members.filter (·.1 ∉ names))
  | v => v

theorem member?_filter (members : List (String × Json)) (names : List String) (name : String) :
    member? (members.filter (·.1 ∉ names)) name =
      if name ∈ names then some none else member? members name := by
  by_cases dropped : name ∈ names
  · have noneKept : (members.filter (·.1 ∉ names)).filter (·.1 == name) = [] := by
      simp only [List.filter_eq_nil_iff, List.mem_filter, decide_eq_true_eq, beq_iff_eq]
      rintro ⟨key, v⟩ ⟨-, stays⟩ rfl
      exact stays dropped
    rw [if_pos dropped, member?, noneKept]
  · have same : (members.filter (·.1 ∉ names)).filter (·.1 == name) =
        members.filter (·.1 == name) := by
      rw [List.filter_filter]
      refine List.filter_congr ?_
      rintro ⟨key, v⟩ -
      by_cases isName : key = name <;> simp [isName, dropped]
    rw [if_neg dropped, member?, member?, same]

theorem Lossless.without {v : Json} (lossless : Lossless v) (names : List String) :
    Lossless (v.without names) := by
  cases lossless with
  | obj each distinct =>
    exact .obj (fun m member => each m (List.mem_of_mem_filter member))
      (distinct.sublist (List.filter_sublist.map _))
  | null => exact .null
  | bool b => exact .bool b
  | int word => exact .int word
  | str s => exact .str s
  | arr each => exact .arr each

theorem defaulted_of_section {α : Type} {decode : Json → Option α} {fallback x : α} {v : Json}
    (read : decode v = some x) (dropped : Prop) [Decidable dropped] :
    defaulted fallback decode (if dropped then none else some v) =
      some (if dropped then fallback else x) := by
  split
  · rfl
  · exact read

theorem Lossless.ofNat {n : Nat} (small : n < 2 ^ 64) : Lossless (.num (.int n)) := by
  refine .int ?_
  simp [fitsWord]
  omega

/-- An object with few members. -/
theorem Lossless.ofMembers {members : List (String × Json)}
    (distinct : (members.map (·.1)).Nodup) (each : members.Forall (Lossless ·.2)) :
    Lossless (.obj members) :=
  .obj (List.forall_iff_forall_mem.mp each) distinct

/-- A text that is read as the document, with its members in any order. -/
def WrittenAs (v : Json) (text : String) : Prop := ∃ w, read? text = some w ∧ Reordered v w

end Json

theorem Aliases.lossless_toJson (a : Aliases) : Lossless a.toJson := by
  obtain ⟨timestamp, price, qty, symbol, _ | side, _ | maker, unit⟩ := a
  all_goals exact .ofMembers (by simp) (by simp [Lossless.str])

namespace Config

/-- The settings with the named sections as they are by default. -/
def reset (names : List String) (c : Config) : Config where
  instrument := if "instrument" ∈ names then ({} : Config).instrument else c.instrument
  tickBars := if "tick_bars" ∈ names then ({} : Config).tickBars else c.tickBars
  dollarBars := if "dollar_bars" ∈ names then ({} : Config).dollarBars else c.dollarBars
  backfill := if "backfill" ∈ names then ({} : Config).backfill else c.backfill
  trendAngle := if "trend_angle" ∈ names then ({} : Config).trendAngle else c.trendAngle
  aliases := if "aliases" ∈ names then ({} : Config).aliases else c.aliases

variable {config : Config}

theorem fault?_reset (valid : config.fault? = none) (names : List String) :
    (config.reset names).fault? = none := by
  have defaultValid : ({} : Config).fault? = none := by decide
  obtain ⟨tickSize, maxRecords, fetchLimit, lengths, size⟩ := fault?_eq_none_iff.mp valid
  obtain ⟨tickSize', maxRecords', fetchLimit', lengths', size'⟩ :=
    fault?_eq_none_iff.mp defaultValid
  refine fault?_eq_none_iff.mpr ⟨?_, ?_, ?_, ?_, ?_⟩
  all_goals
    dsimp only [reset]
    split <;> assumption

theorem ofJson?_without (names : List String) (c : Config) :
    ofJson? (c.toJson.without names) = some (c.reset names) := by
  have found : (c.toJson.without names).fields? sectionNames 6 = some [
      if "instrument" ∈ names then none else some c.instrument.toJson,
      if "tick_bars" ∈ names then none else some c.tickBars.toJson,
      if "dollar_bars" ∈ names then none else some c.dollarBars.toJson,
      if "backfill" ∈ names then none else some c.backfill.toJson,
      if "trend_angle" ∈ names then none else some c.trendAngle.toJson,
      if "aliases" ∈ names then none else some c.aliases.toJson] := by
    simp only [toJson, without, fields?, funext (member?_filter _ names)]
    simp [sectionNames, member?, ← apply_ite some]
  simp only [ofJson?, found, Option.bind_eq_bind, Option.bind_some,
    defaulted_of_section (Instrument.ofJson?_toJson _),
    defaulted_of_section (TickBars.ofJson?_toJson _),
    defaulted_of_section (DollarBars.ofJson?_toJson _),
    defaulted_of_section (Backfill.ofJson?_toJson _),
    defaulted_of_section (TrendAngle.ofJson?_toJson _),
    defaulted_of_section (Aliases.ofJson?_toJson _)]
  rfl

theorem lossless_toJson (c : Config) : Lossless c.toJson := by
  have word (n : UInt64) : Lossless (ofUInt64 n) := .ofNat n.toNat_lt
  have instrument : Lossless c.instrument.toJson :=
    .ofMembers (by simp) ⟨.str _, .str _⟩
  have tickBars : Lossless c.tickBars.toJson :=
    .ofMembers (by simp) ⟨.ofNat (c.tickBars.tickSize.toNat_lt.trans (by decide)), word _⟩
  have dollarBars : Lossless c.dollarBars.toJson := .ofMembers (by simp) (.str _)
  have backfill : Lossless c.backfill.toJson :=
    .ofMembers (by simp) ⟨word _, word _⟩
  have trendAngle : Lossless c.trendAngle.toJson :=
    .ofMembers (by simp) ⟨word _, word _, word _, word _⟩
  exact .ofMembers (by simp)
    ⟨instrument, tickBars, dollarBars, backfill, trendAngle, Aliases.lossless_toJson _⟩

theorem ofText_of_written {c : Config} {names : List String} {text : String}
    (written : (c.toJson.without names).WrittenAs text) :
    ofText text = (c.reset names).validated := by
  obtain ⟨w, read, same⟩ := written
  have decoded : ofJson? w = some (c.reset names) :=
    (unordered_ofJson? _ _ same).symm.trans (ofJson?_without names c)
  have document : decode text = .ok (c.reset names) := by
    rw [decode, read, Option.bind_eq_bind, Option.bind_some, decoded]
  rw [ofText, document]
  rfl

/-- Settings without a fault are loaded from every text they are saved as, and from such a text
without some of the sections with those as they are by default. What the printer makes of them is
such a text. -/
theorem ofText_of_saved (c : Config) (names : List String) :
    (c.fault? = none →
      (∀ text, c.toJson.WrittenAs text → ofText text = .ok c) ∧ (c.reset names).fault? = none) ∧
    ((c.reset names).fault? = none → ∀ text, (c.toJson.without names).WrittenAs text →
      ofText text = .ok (c.reset names)) ∧
    c.toJson.WrittenAs c.toJson.text ∧
    (c.toJson.without names).WrittenAs (c.toJson.without names).text := by
  have loaded (names : List String) (valid : (c.reset names).fault? = none) (text : String)
      (written : (c.toJson.without names).WrittenAs text) :
      ofText text = .ok (c.reset names) :=
    (ofText_of_written written).trans (validated_eq_ok_iff.mpr ⟨valid, rfl⟩)
  have whole : c.toJson.without [] = c.toJson := by simp [toJson, Json.without]
  have same : c.reset [] = c := by simp [reset]
  refine ⟨fun valid => ⟨?_, fault?_reset valid names⟩, loaded names,
    exists_read?_text (lossless_toJson c), exists_read?_text ((lossless_toJson c).without names)⟩
  have loaded := loaded []
  rw [whole, same] at loaded
  exact loaded valid

/-- The largest numbers, and a symbol that needs escapes. -/
theorem ofText_of_saved_escapes :
    let symbol := "BTC\"\\\n\x01\x7f😀"
    let aliases : Aliases := ⟨"t", "p", "q", "s", some "", none, .seconds⟩
    let c : Config :=
      { instrument := ⟨symbol, ""⟩, tickBars := ⟨0xffffffff, 0xffffffffffffffff⟩,
        backfill := ⟨0xffffffffffffffff, 0xffffffffffffffff⟩, aliases }
    c.fault? = none ∧ ofText c.toJson.text = .ok c ∧
      ofText (c.toJson.without ["instrument", "backfill"]).text =
        .ok { tickBars := ⟨0xffffffff, 0xffffffffffffffff⟩, aliases } := by
  intro symbol aliases c
  have valid : c.fault? = none := by decide
  obtain ⟨whole, rest, text, text'⟩ := ofText_of_saved c ["instrument", "backfill"]
  obtain ⟨loaded, valid'⟩ := whole valid
  exact ⟨valid, loaded _ text, rest valid' _ text'⟩

end Config

end TradeBars
