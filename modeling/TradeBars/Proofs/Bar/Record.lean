import TradeBars.Bar.Record
import TradeBars.Proofs.Scalar.Integers

/-! Bars and their records. A bar is its record as long as the record holds its timestamp without
loss, and a record is its bar as long as the timestamp and the count in it are integers that a bar
holds. Of the other records a bar keeps what these two entries are cut to. -/
namespace TradeBars.Bar
open Binary64

section Count

theorem toNat_toUInt32 (x : Float) : ((toUInt32 x).toNat : ℤ) = truncate 0 0xffffffff x := by
  have lower : 0 ≤ truncate 0 0xffffffff x := le_max_left _ _
  have upper : truncate 0 0xffffffff x ≤ 0xffffffff := max_le (by decide) (min_le_left _ _)
  have word : (truncate 0 0xffffffff x).toNat < UInt32.size := by
    rw [UInt32.size]
    omega
  have same : (toUInt32 x).toNat = (truncate 0 0xffffffff x).toNat :=
    UInt32.toNat_ofNat_of_lt' word
  omega

theorem toUInt32_ofInt (n : UInt32) : toUInt32 (ofInt n.toNat) = n := by
  have word := n.toNat_lt
  have small : |(n.toNat : ℤ)| ≤ 2 ^ 53 := by
    rw [Nat.abs_cast]
    omega
  have same := toNat_toUInt32 (ofInt n.toNat)
  rw [truncate_ofInt small (by omega) (by omega)] at same
  exact UInt32.toNat_inj.mp (Int.natCast_inj.mp same)

/-- A count below one, and one that is no number, are cut to none. -/
theorem truncate_count_eq_zero {x : Float}
    (belowOne : Scalar.isNaN x = true ∨ Scalar.lt x 1 = true) :
    truncate 0 0xffffffff x = 0 := by
  have isOne : value? 1 = some 1 := (value?_ofInt (n := 1) (by decide)).trans (by simp)
  have spec : CutTo 0 0xffffffff x (truncate 0 0xffffffff x) := cutTo_truncate le_rfl (by decide) x
  generalize truncate 0 0xffffffff x = n at spec
  cases spec with
  | below | notANumber => rfl
  | above infinite =>
    cases belowOne with
    | inl nan => rw [unpack_of_isNaN nan] at infinite; contradiction
    | inr less => rw [lt_eq_unpack, infinite] at less; contradiction
  | @number q number =>
    have less : q < 1 := by
      cases belowOne with
      | inl nan => rw [isNaN_of_value? number] at nan; contradiction
      | inr less => exact (lt_iff_value? number isOne).mp less
    have nonpos := towardsZero_nonpos less
    omega

theorem not_isConsistent_of_no_trades {b : Bar Float} (noTrades : b.tradeCount = 0) :
    b.isConsistent = false := by
  simp [isConsistent, noTrades]

end Count

section Entries

/-- The timestamp and the count of a record are integers, in the ranges in which none is lost. -/
structure Whole (r : Record) : Prop where
  timestamp : Integral (-2 ^ 53) (2 ^ 53) (r.get 0)
  tradeCount : Integral 0 (2 ^ 32 - 1) (r.get 7)

theorem ofRecord_record {b : Bar Float} (small : |b.timestamp| ≤ 2 ^ 53) :
    ofRecord (record b) = b := by
  obtain ⟨lower, upper⟩ := abs_le.mp small
  have timestamp : toInt64 (ofInt b.timestamp) = b.timestamp :=
    truncate_ofInt small (by omega) (by omega)
  have count : toUInt32 (ofInt b.tradeCount.toNat) = b.tradeCount := toUInt32_ofInt b.tradeCount
  change { b with
    timestamp := toInt64 (ofInt b.timestamp)
    tradeCount := toUInt32 (ofInt b.tradeCount.toNat) } = b
  rw [timestamp, count]

/-- A record whose integers a bar holds comes back, but for the sign of a zero among them. -/
theorem same_record_ofRecord {r : Record} (whole : Whole r) (i : Fin 10) :
    Scalar.Same ((record (ofRecord r)).get i) (r.get i) := by
  obtain ⟨timestamp, count⟩ := whole
  match i with
  | 0 => exact timestamp.same_ofInt (timestamp.mono (by decide) (by decide))
  | 7 =>
    have entry : (record (ofRecord r)).get 7 = ofInt (truncate 0 0xffffffff (r.get 7)) :=
      congrArg ofInt (toNat_toUInt32 (r.get 7))
    have same := Integral.same_ofInt (count.mono (by decide) (by decide)) count
    exact entry ▸ same
  | 1 | 2 | 3 | 4 | 5 | 6 | 8 | 9 => exact .inl rfl

end Entries

/-- A bar whose timestamp is not above `2 ^ 53` in magnitude comes back from its record. So does a
record from its bar if it is `Whole`, where a zero is the same with either sign. From every other
record comes a bar too: it has the other eight entries as they are and these two cut to the bounds
of their words, and with fewer than one trade, or not a number of them, it is not consistent. -/
theorem record_round_trip :
    (∀ b : Bar Float, |b.timestamp| ≤ 2 ^ 53 → ofRecord (record b) = b) ∧
      (∀ r : Record, Whole r → ∀ i : Fin 10, Scalar.Same ((record (ofRecord r)).get i) (r.get i)) ∧
      ∀ r : Record,
        CutTo (-2 ^ 63) (2 ^ 63 - 1) (r.get 0) (ofRecord r).timestamp ∧
        CutTo 0 (2 ^ 32 - 1) (r.get 7) (ofRecord r).tradeCount.toNat ∧
        (∀ i : Fin 10, i ≠ 0 → i ≠ 7 → (record (ofRecord r)).get i = r.get i) ∧
        (Scalar.isNaN (r.get 7) = true ∨ Scalar.lt (r.get 7) 1 = true →
          (ofRecord r).isConsistent = false) := by
  refine ⟨fun b => ofRecord_record, fun r => same_record_ofRecord, fun r => ⟨?_, ?_, ?_, ?_⟩⟩
  · exact cutTo_truncate (by decide) (by decide) (r.get 0)
  · have count : ((ofRecord r).tradeCount.toNat : ℤ) = truncate 0 0xffffffff (r.get 7) :=
      toNat_toUInt32 (r.get 7)
    rw [count]
    exact cutTo_truncate le_rfl (by decide) (r.get 7)
  · intro i first count
    match i with
    | 0 | 7 => contradiction
    | 1 | 2 | 3 | 4 | 5 | 6 | 8 | 9 => rfl
  · intro belowOne
    apply not_isConsistent_of_no_trades
    have count : ((ofRecord r).tradeCount.toNat : ℤ) = 0 :=
      (toNat_toUInt32 (r.get 7)).trans (truncate_count_eq_zero belowOne)
    exact UInt32.toNat_inj.mp (Int.natCast_inj.mp count)

theorem extreme_records :
    (let bar : Bar Float := ⟨-2 ^ 53, 0 / 0, 1, 1, 1, 1, 1, 0xffffffff, 1, 1⟩
     ofRecord (record bar) = bar) ∧
    (let r : Record := #v[ofInt (2 ^ 53), 0 / 0, 1, 1, 1, 1, 1, ofInt (2 ^ 32 - 1), 1, 1]
     ∀ i : Fin 10, Scalar.Same ((record (ofRecord r)).get i) (r.get i)) ∧
    (ofRecord #v[0, 1, 1, 1, 1, 1, 1, 0 / 0, 1, 1]).isConsistent = false := by
  refine ⟨record_round_trip.1 _ (by norm_num), ?_, ?_⟩
  · refine record_round_trip.2.1 _ ⟨⟨2 ^ 53, ?_, by norm_num⟩, 2 ^ 32 - 1, ?_, by norm_num⟩
    · exact value?_ofInt (by norm_num)
    · exact value?_ofInt (by norm_num)
  · exact (record_round_trip.2.2 _).2.2.2 (.inl rfl)

end TradeBars.Bar
