import TradeBars.Proofs.Builder

/-! A builder that takes trades and history in any order, and a ledger of what went in and of what
was given up. Main statement: the ledger balances. What the builder gave up and what it has are, one
after the other, the history and then the bars of all trades. -/
namespace TradeBars.Builder
open Newest

variable {α : Type}

inductive Operation (α : Type) where
  | trade (t : Trade α)
  | history (bars : List (Bar α))

def Operation.trade? : Operation α → Option (Trade α)
  | .trade t => some t
  | .history _ => none

def trades (ops : List (Operation α)) : List (Trade α) := ops.filterMap Operation.trade?

theorem trades_map_trade (ts : List (Trade α)) : trades (ts.map .trade) = ts := by
  simp [trades, List.filterMap_map, Function.comp_def, Operation.trade?]

/-- A builder with the history that went in and the bars that its series handed back, both from old
to new, and with the trades in the order in which they came. -/
structure Ledger (α : Type) where
  builder : Builder α
  trades : List (Trade α)
  inserted : List (Bar α)
  evicted : List (Bar α)

namespace Ledger

def start (b : Builder α) : Ledger α := ⟨b, [], [], []⟩

/-- The bars that were given up, and the ones that are there. -/
def bars (l : Ledger α) : List (Bar α) := l.evicted ++ l.builder.bars

end Ledger

variable [Scalar α]

def perform (b : Builder α) : Operation α → Builder α
  | .trade t => (b.addTrade t).2
  | .history bars => (b.prepend bars).2

/-- The bar that the series hands back for a trade, if the trade opens a bar. -/
def handedBack (b : Builder α) (t : Trade α) : Option (Bar α) :=
  if b.isOpen then none else (b.series.pushBack (.ofTrade t)).1

namespace Ledger

/-- The ledger after one more operation. The history that went in is read off the builder: as many
bars of its old end as it counts. -/
def enter (l : Ledger α) (op : Operation α) : Ledger α :=
  let after := l.builder.perform op
  match op with
  | .trade t =>
    { l with
      builder := after
      trades := l.trades ++ [t]
      evicted := l.evicted ++ (l.builder.handedBack t).toList }
  | .history bars =>
    { l with
      builder := after
      inserted := after.bars.take (l.builder.prepend bars).1 ++ l.inserted }

def enterAll (l : Ledger α) (ops : List (Operation α)) : Ledger α := ops.foldl enter l

end Ledger

section Steps

variable {b : Builder α} {bars : List (Bar α)}

/-- A trade changes the newest bar or adds one, and no bar goes missing but the one that is handed
back. -/
theorem Shows.handedBack_append (shown : b.Shows bars) (t : Trade α) :
    (b.handedBack t).toList ++ (b.addTrade t).2.bars = feed b.threshold b.bars t := by
  have holds : b.series.Holds b.bars := shown.bars_eq ▸ shown
  have isOpen : b.isOpen = b.bars.getLast?.any (·.tradeCount < b.threshold) := by
    rw [shown.isOpen_eq, shown.bars_eq, getLast?_rtake _ shown.positive]
  unfold handedBack feed
  rw [← isOpen]
  change _ ++ Ring.toList (if b.isOpen then _ else _ : Series α) = _
  by_cases opened : b.isOpen = true
  · simp only [opened, if_true]
    exact (holds.modifyLast _).toList_eq
  · simp only [opened, Bool.false_eq_true, if_false]
    exact Series.pushBack_whole holds (.ofTrade t)

omit [Scalar α] in
theorem Shows.bars_eq_nil_iff (shown : b.Shows bars) : b.bars = [] ↔ bars = [] := by
  rw [← List.length_eq_zero_iff, ← List.length_eq_zero_iff, shown.bars_eq, length_rtake]
  have := shown.positive
  omega

/-- Without a bar there is nothing that history could stand in front of. -/
theorem Shows.added_of_empty (shown : b.Shows []) (history : List (Bar α)) :
    b.added history = [] := by
  have held : b.series.Holds ([] : List (Bar α)) := by simpa [Shows] using shown
  have oldest : b.oldest? = none := oldest?_eq held
  simp [added, eligible, oldest]

end Steps

namespace Ledger

/-- What the entries keep. -/
structure Balanced (capacity : Nat) (threshold : UInt32) (l : Ledger α) : Prop where
  capacity_eq : l.builder.capacity = capacity
  threshold_eq : l.builder.threshold = threshold
  shown : l.builder.Shows (l.inserted ++ liveBars threshold l.trades)
  whole : l.bars = l.inserted ++ liveBars threshold l.trades
  anchored : l.trades = [] → l.inserted = []
  consistent : ∀ bar ∈ l.inserted, bar.isConsistent = true

variable {capacity : Nat} {threshold : UInt32} {l : Ledger α} {b : Builder α}

theorem balanced_start (made : new capacity threshold = .ok b) :
    Balanced capacity threshold (start b) := by
  obtain ⟨shown, rfl, rfl, -⟩ := shows_of_new made
  constructor
  case capacity_eq | threshold_eq | anchored => simp [start]
  case consistent => simp [start]
  case shown => simpa [start, LiveBars.liveBars_nil] using shown
  case whole =>
    have empty : b.bars = [] := shown.bars_eq_nil_iff.mpr rfl
    simp [start, bars, empty, LiveBars.liveBars_nil]

namespace Balanced

theorem bars_enter_trade (balanced : Balanced capacity threshold l) (t : Trade α) :
    (l.enter (.trade t)).bars = feed threshold l.bars t := by
  have step := balanced.shown.handedBack_append t
  rw [balanced.threshold_eq] at step
  simp only [bars, enter, perform, List.append_assoc, step]
  by_cases noBars : l.builder.bars = []
  · -- then there never was a bar, so that none was given up
    have all := balanced.whole
    rw [balanced.shown.bars_eq_nil_iff.mp noBars] at all
    obtain ⟨noneEvicted, -⟩ := List.append_eq_nil_iff.mp all
    simp [noneEvicted]
  · exact (LiveBars.feed_append _ noBars t).symm

theorem trade (balanced : Balanced capacity threshold l) (someTrades : 0 < threshold.toNat)
    (t : Trade α) : Balanced capacity threshold (l.enter (.trade t)) := by
  have more := LiveBars.feed_append_liveBars someTrades balanced.anchored t
  constructor
  case capacity_eq => exact (capacity_addTrade _ _).trans balanced.capacity_eq
  case threshold_eq => exact balanced.threshold_eq
  case shown =>
    have shown := balanced.shown.addTrade t
    rwa [balanced.threshold_eq, more] at shown
  case whole =>
    rw [balanced.bars_enter_trade, balanced.whole]
    exact more
  case anchored => simp [enter]
  case consistent => exact balanced.consistent

/-- What went in stands in front of the bars that were there. -/
theorem enter_history (balanced : Balanced capacity threshold l) (history : List (Bar α)) :
    (l.enter (.history history)).inserted = l.builder.added history ++ l.inserted ∧
      (l.enter (.history history)).builder.bars = l.builder.added history ++ l.builder.bars :=
  ⟨congrArg (· ++ l.inserted) (balanced.shown.take_prepend history),
    balanced.shown.bars_prepend history⟩

theorem bars_enter_history (balanced : Balanced capacity threshold l) (history : List (Bar α)) :
    (l.enter (.history history)).bars = l.builder.added history ++ l.bars := by
  obtain ⟨-, kept⟩ := balanced.enter_history history
  change l.evicted ++ _ = _ ++ (l.evicted ++ l.builder.bars)
  rw [kept]
  by_cases noneAdded : l.builder.added history = []
  · simp [noneAdded]
  · -- there was room, so that no bar had been given up
    have room := balanced.shown.length_lt (missing_pos_of_added history noneAdded)
    have all := balanced.shown.bars_eq
    rw [rtake_of_length_le room.le, ← balanced.whole] at all
    have noneEvicted : l.evicted = [] := by simpa [bars] using all
    simp [noneEvicted]

theorem history (balanced : Balanced capacity threshold l) (history : List (Bar α)) :
    Balanced capacity threshold (l.enter (.history history)) := by
  obtain ⟨-, -, threshold_eq, capacity_eq⟩ := prepend_holds balanced.shown history
  obtain ⟨inserted, -⟩ := balanced.enter_history history
  constructor
  case capacity_eq => exact capacity_eq.trans balanced.capacity_eq
  case threshold_eq => exact threshold_eq.trans balanced.threshold_eq
  case shown =>
    rw [inserted, List.append_assoc]
    exact balanced.shown.prepend history
  case whole =>
    rw [balanced.bars_enter_history, inserted, List.append_assoc, balanced.whole]
    rfl
  case anchored =>
    intro noTrades
    have shown := balanced.shown
    rw [balanced.anchored noTrades, show l.trades = [] from noTrades,
      LiveBars.liveBars_nil] at shown
    rw [inserted, shown.added_of_empty, balanced.anchored noTrades, List.append_nil]
  case consistent =>
    rw [inserted, List.forall_mem_append]
    exact ⟨fun bar member => (mem_added member).2.1, balanced.consistent⟩

theorem enterAll (balanced : Balanced capacity threshold l) (someTrades : 0 < threshold.toNat)
    (ops : List (Operation α)) : Balanced capacity threshold (l.enterAll ops) := by
  induction ops generalizing l with
  | nil => exact balanced
  | cons op ops ih =>
    cases op with
    | trade t => exact ih (balanced.trade someTrades t)
    | history bars => exact ih (balanced.history bars)

end Balanced

theorem builder_enterAll (l : Ledger α) (ops : List (Operation α)) :
    (l.enterAll ops).builder = ops.foldl perform l.builder := by
  induction ops generalizing l with
  | nil => rfl
  | cons op ops ih => cases op <;> exact ih _

theorem trades_enterAll (l : Ledger α) (ops : List (Operation α)) :
    (l.enterAll ops).trades = l.trades ++ Builder.trades ops := by
  induction ops generalizing l with
  | nil => simp [enterAll, Builder.trades]
  | cons op ops ih =>
    cases op with
    | trade t => exact (ih _).trans (List.append_assoc _ _ _)
    | history bars => exact ih _

theorem inserted_enterAll_map_trade (l : Ledger α) (ts : List (Trade α)) :
    (l.enterAll (ts.map .trade)).inserted = l.inserted := by
  induction ts generalizing l with
  | nil => rfl
  | cons t ts ih => exact ih _

/-- Whatever is done to a new builder, and in whatever order. -/
theorem balanced_of_new (made : new capacity threshold = .ok b) (ops : List (Operation α)) :
    Balanced capacity threshold ((start b).enterAll ops) ∧
      ((start b).enterAll ops).trades = Builder.trades ops := by
  obtain ⟨-, -, -, someTrades⟩ := shows_of_new made
  exact ⟨(balanced_start made).enterAll someTrades ops, trades_enterAll (start b) ops⟩

end Ledger

end TradeBars.Builder
