import Mathlib.Algebra.Field.Rat
import Mathlib.Algebra.Order.Ring.Unbundled.Rat
import TradeBars.Proofs.Operations
import TradeBars.Proofs.Scalar.Exact

/-! What trades come to, and what their bars come to. Main statement: in exact arithmetic both are
the same. A trade adds its own amounts to the bars, whether it goes into a bar, opens one or drives
one out, and history adds those of the bars that go in. -/
namespace TradeBars

/-- The amounts that trades have, or bars for the trades that are in them. -/
@[ext] structure Totals (α : Type) where
  volume : α
  quoteVolume : α
  tradeCount : Nat
  takerBuyVolume : α
  takerBuyQuote : α

variable {α : Type} [Scalar α]

namespace Totals

instance : Add (Totals α) where
  add x y :=
    { volume := x.volume + y.volume
      quoteVolume := x.quoteVolume + y.quoteVolume
      tradeCount := x.tradeCount + y.tradeCount
      takerBuyVolume := x.takerBuyVolume + y.takerBuyVolume
      takerBuyQuote := x.takerBuyQuote + y.takerBuyQuote }

@[simp] theorem add_def (x y : Totals α) : x + y =
    ⟨x.volume + y.volume, x.quoteVolume + y.quoteVolume, x.tradeCount + y.tradeCount,
      x.takerBuyVolume + y.takerBuyVolume, x.takerBuyQuote + y.takerBuyQuote⟩ := rfl

def ofTrades (ts : List (Trade α)) : Totals α :=
  let buys := ts.filter (·.side = .buy)
  { volume := Scalar.sum (ts.map (·.qty))
    quoteVolume := Scalar.sum (ts.map (·.quote))
    tradeCount := ts.length
    takerBuyVolume := Scalar.sum (buys.map (·.qty))
    takerBuyQuote := Scalar.sum (buys.map (·.quote)) }

def ofBar (b : Bar α) : Totals α :=
  ⟨b.volume, b.quoteVolume, b.tradeCount.toNat, b.takerBuyVolume, b.takerBuyQuote⟩

def ofBars (bars : List (Bar α)) : Totals α where
  volume := Scalar.sum (bars.map (·.volume))
  quoteVolume := Scalar.sum (bars.map (·.quoteVolume))
  tradeCount := (bars.map (·.tradeCount.toNat)).sum
  takerBuyVolume := Scalar.sum (bars.map (·.takerBuyVolume))
  takerBuyQuote := Scalar.sum (bars.map (·.takerBuyQuote))

section Exact

variable [ExactScalar α]

theorem add_assoc (x y z : Totals α) : x + y + z = x + (y + z) := by
  simp [ExactScalar.add_assoc, Nat.add_assoc]

theorem ofBars_nil_add (x : Totals α) : ofBars [] + x = x := by
  simp [ofBars, Scalar.sum, ExactScalar.zero_add]

theorem ofTrades_append (ts us : List (Trade α)) :
    ofTrades (ts ++ us) = ofTrades ts + ofTrades us := by
  simp [ofTrades, Scalar.sum_append]

theorem ofBars_append (bars more : List (Bar α)) :
    ofBars (bars ++ more) = ofBars bars + ofBars more := by
  simp [ofBars, Scalar.sum_append]

theorem ofBars_singleton (b : Bar α) : ofBars [b] = ofBar b := by
  simp [ofBars, ofBar, Scalar.sum, ExactScalar.zero_add]

theorem ofBar_ofTrade (t : Trade α) : ofBar (.ofTrade t) = ofTrades [t] := by
  by_cases buy : t.side = .buy <;>
    simp [ofBar, Bar.ofTrade, ofTrades, Scalar.sum, ExactScalar.zero_add, buy]

theorem ofBar_add {b : Bar α} (fits : b.tradeCount.toNat + 1 < 2 ^ 32) (t : Trade α) :
    ofBar (b.add t) = ofBar b + ofTrades [t] := by
  have count : (b.tradeCount + 1).toNat = b.tradeCount.toNat + 1 := by
    rw [UInt32.toNat_add]
    exact Nat.mod_eq_of_lt fits
  by_cases buy : t.side = .buy <;>
    simp [ofBar, Bar.add, ofTrades, Scalar.sum, ExactScalar.zero_add, ExactScalar.add_zero, buy,
      count]

/-- The step of a trade: it counts once, in the newest bar or in one of its own. -/
theorem ofBars_feed (threshold : UInt32) (bars : List (Bar α)) (t : Trade α) :
    ofBars (feed threshold bars t) = ofBars bars + ofTrades [t] := by
  unfold feed
  split
  · next isOpen =>
    obtain rfl | ⟨front, newest, rfl⟩ := List.eq_nil_or_concat bars
    · contradiction
    · simp only [List.concat_eq_append, List.getLast?_concat, Option.any_some,
        decide_eq_true_eq] at isOpen
      have fits : newest.tradeCount.toNat + 1 < 2 ^ 32 :=
        (Nat.succ_le_of_lt (UInt32.lt_iff_toNat_lt.mp isOpen)).trans_lt threshold.toNat_lt
      rw [List.concat_eq_append, List.modifyLast_concat, ofBars_append, ofBars_append,
        ofBars_singleton, ofBars_singleton, ofBar_add fits, add_assoc]
  · rw [ofBars_append, ofBars_singleton, ofBar_ofTrade]

theorem ofBars_feedAll (threshold : UInt32) (bars : List (Bar α)) (ts : List (Trade α)) :
    ofBars (feedAll threshold bars ts) = ofBars bars + ofTrades ts := by
  induction ts using List.reverseRecOn with
  | nil => simp [feedAll, ofBars, ofTrades, Scalar.sum, ExactScalar.add_zero]
  | append_singleton ts t ih =>
    rw [feedAll, List.foldl_concat, ofBars_feed, ofTrades_append, ← add_assoc, ← ih]
    rfl

theorem ofBars_liveBars {threshold : UInt32} (positive : 0 < threshold.toNat)
    (ts : List (Trade α)) : ofBars (liveBars threshold ts) = ofTrades ts := by
  rw [← LiveBars.feedAll_nil positive, ofBars_feedAll, ofBars_nil_add]

end Exact

end Totals

namespace Builder.Ledger

section Exact

variable [ExactScalar α] {capacity : Nat} {threshold : UInt32} {l : Ledger α}

/-- What one operation adds. -/
theorem Balanced.totals_enter (balanced : Balanced capacity threshold l) (op : Operation α) :
    Totals.ofBars (l.enter op).bars =
      match op with
      | .trade t => Totals.ofBars l.bars + Totals.ofTrades [t]
      | .history bars => Totals.ofBars (l.builder.added bars) + Totals.ofBars l.bars := by
  cases op with
  | trade t => rw [balanced.bars_enter_trade, Totals.ofBars_feed]
  | history bars => rw [balanced.bars_enter_history, Totals.ofBars_append]

theorem Balanced.totals (balanced : Balanced capacity threshold l)
    (someTrades : 0 < threshold.toNat) :
    Totals.ofBars l.bars = Totals.ofBars l.inserted + Totals.ofTrades l.trades := by
  rw [balanced.whole, Totals.ofBars_append, Totals.ofBars_liveBars someTrades]

end Exact

end Builder.Ledger

end TradeBars
