import TradeBars.Proofs.Scalar.Signs
import TradeBars.Proofs.Operations
import TradeBars.Proofs.Totals

/-! What a bar tells of the trades in it, and when it is consistent. Main statement: whatever is
done to a builder, each of its bars is either the true bar of a group of trades or a consistent one
from the history, so that only a volume that is negative or out of range makes it inconsistent. -/
namespace TradeBars

variable {α : Type} [Scalar α]

/-- One of some values, to which all of them are in a relation. -/
def Extreme (r : α → α → Bool) (xs : List α) (m : α) : Prop := m ∈ xs ∧ ∀ x ∈ xs, r x m = true

/-- A bar has the time and the first price of its first trade, the last price, and the greatest and
the least price that there is. -/
structure Bar.Reflects (ts : List (Trade α)) (bar : Bar α) : Prop where
  timestamp : ts.head?.map (·.timestamp) = some bar.timestamp
  openPrice : ts.head?.map (·.price) = some bar.openPrice
  close : ts.getLast?.map (·.price) = some bar.close
  high : Extreme (fun price high => Scalar.le price high) (ts.map (·.price)) bar.high
  low : Extreme (fun price low => Scalar.le low price) (ts.map (·.price)) bar.low
  tradeCount : bar.tradeCount.toNat = ts.length

section Extreme

variable {r : α → α → Bool} {xs : List α} {m x : α}

omit [Scalar α] in
theorem extreme_singleton (same : r x x = true) : Extreme r [x] x := by
  simp [Extreme, same]

variable (numbers : ∀ y ∈ xs ++ [x], Scalar.isNaN y = false)
include numbers

/-- One of the old extreme and the new value takes over, if it is one of the two and both are in
the relation to it. -/
theorem Extreme.concat (extreme : Extreme r xs m) {next : α} (kept : next = m ∨ next = x)
    (both : Scalar.isNaN m = false → Scalar.isNaN x = false → r m next = true ∧ r x next = true)
    (trans : ∀ {a b c}, Scalar.isNaN a = false → Scalar.isNaN b = false → Scalar.isNaN c = false →
      r a b = true → r b c = true → r a c = true) :
    Extreme r (xs ++ [x]) next := by
  obtain ⟨member, all⟩ := extreme
  rw [List.forall_mem_append, List.forall_mem_singleton] at numbers
  obtain ⟨others, last⟩ := numbers
  have number := others m member
  obtain ⟨old, new⟩ := both number last
  constructor
  · cases kept with
    | inl same => exact List.mem_append_left _ (same ▸ member)
    | inr same => exact List.mem_append_right _ (List.mem_singleton.mpr same)
  · rw [List.forall_mem_append, List.forall_mem_singleton]
    refine ⟨fun y inside => ?_, new⟩
    have next := Scalar.isNaN_of_eq_or kept number last
    exact trans (others y inside) number next (all y inside) old

variable [LawfulScalar α]

theorem Extreme.larger (greatest : Extreme (fun x m => Scalar.le x m) xs m) :
    Extreme (fun x m => Scalar.le x m) (xs ++ [x]) (Scalar.larger m x) :=
  greatest.concat numbers (Scalar.larger_eq_or m x) Scalar.le_larger Scalar.le_trans

theorem Extreme.smaller (least : Extreme (fun x m => Scalar.le m x) xs m) :
    Extreme (fun x m => Scalar.le m x) (xs ++ [x]) (Scalar.smaller m x) :=
  least.concat numbers (Scalar.smaller_eq_or m x) Scalar.smaller_le
    fun a b c above below => Scalar.le_trans c b a below above

end Extreme

namespace Bar

variable [LawfulScalar α] {ts : List (Trade α)} {bar : Bar α}

section Reflects

theorem reflects_ofTrade {t : Trade α} (number : Scalar.isNaN t.price = false) :
    Reflects [t] (ofTrade t) := by
  have same := Scalar.le_self number
  constructor
  case high | low => exact extreme_singleton same
  case timestamp | openPrice | close | tradeCount => rfl

omit [Scalar α] [LawfulScalar α] in
theorem head?_concat {β : Type} {f : Trade α → β} {x : β} (found : ts.head?.map f = some x)
    (t : Trade α) : (ts ++ [t]).head?.map f = some x := by
  obtain ⟨first, head, rfl⟩ := Option.map_eq_some_iff.mp found
  rw [List.head?_append, head]
  rfl

theorem Reflects.add (reflects : Reflects ts bar) {t : Trade α}
    (numbers : ∀ price ∈ (ts ++ [t]).map (·.price), Scalar.isNaN price = false)
    (fits : (ts ++ [t]).length < 2 ^ 32) : Reflects (ts ++ [t]) (bar.add t) := by
  rw [List.map_append] at numbers
  constructor
  case timestamp => exact head?_concat reflects.timestamp t
  case openPrice => exact head?_concat reflects.openPrice t
  case close => simp [Bar.add]
  case high =>
    rw [List.map_append]
    exact reflects.high.larger numbers
  case low =>
    rw [List.map_append]
    exact reflects.low.smaller numbers
  case tradeCount =>
    rw [List.length_append, List.length_singleton] at fits ⊢
    rw [← reflects.tradeCount] at fits ⊢
    exact (UInt32.toNat_add _ _).trans (Nat.mod_eq_of_lt fits)

theorem reflects_of_made (numbers : ∀ price ∈ ts.map (·.price), Scalar.isNaN price = false)
    (fits : ts.length < 2 ^ 32) (made : ofTrades? ts = some bar) : Reflects ts bar := by
  refine LiveBars.ofTrades?_induction
    (p := fun ts bar => (∀ price ∈ ts.map (·.price), Scalar.isNaN price = false) →
      ts.length < 2 ^ 32 → Reflects ts bar) ?_ ?_ made numbers fits
  · exact fun t numbers _ => reflects_ofTrade (numbers _ List.mem_cons_self)
  · intro ts before t ih numbers fits
    have earlier := numbers
    have shorter := fits
    rw [List.map_append, List.forall_mem_append] at earlier
    rw [List.length_append] at shorter
    exact (ih earlier.1 (Nat.lt_of_add_right_lt shorter)).add numbers fits

omit [LawfulScalar α] in
theorem Reflects.mem_prices (reflects : Reflects ts bar) :
    bar.openPrice ∈ ts.map (·.price) ∧ bar.close ∈ ts.map (·.price) := by
  have first := reflects.openPrice
  have last := reflects.close
  rw [← List.head?_map] at first
  rw [← List.getLast?_map] at last
  exact ⟨List.mem_of_mem_head? first, List.mem_of_mem_getLast? last⟩

omit [LawfulScalar α] in
theorem volume_of_isConsistent (consistent : bar.isConsistent = true) :
    Scalar.isFinite bar.volume = true ∧ Scalar.le 0 bar.volume = true := by
  simp only [isConsistent, List.all_cons, List.all_nil, Bool.and_true, Bool.and_eq_true]
    at consistent
  exact ⟨consistent.1.1.1.1.2.2.2.2, consistent.2⟩

omit [LawfulScalar α] in
/-- The prices of such a bar are in order, and they are as finite as those of its trades. -/
theorem Reflects.isConsistent_iff (reflects : Reflects ts bar)
    (finite : ∀ price ∈ ts.map (·.price), Scalar.isFinite price = true) :
    bar.isConsistent = true ↔
      Scalar.isFinite bar.volume = true ∧ Scalar.le 0 bar.volume = true := by
  obtain ⟨first, last⟩ := reflects.mem_prices
  have inner : Scalar.le bar.low (Scalar.smaller bar.openPrice bar.close) = true := by
    cases Scalar.smaller_eq_or bar.openPrice bar.close with
    | inl same => rw [same]; exact reflects.low.2 _ first
    | inr same => rw [same]; exact reflects.low.2 _ last
  have outer : Scalar.le (Scalar.larger bar.openPrice bar.close) bar.high = true := by
    cases Scalar.larger_eq_or bar.openPrice bar.close with
    | inl same => rw [same]; exact reflects.high.2 _ first
    | inr same => rw [same]; exact reflects.high.2 _ last
  have counted : 1 ≤ bar.tradeCount := by
    have nonempty := List.length_pos_of_mem first
    rw [List.length_map, ← reflects.tradeCount] at nonempty
    exact UInt32.le_iff_toNat_le.mpr nonempty
  simp [isConsistent, finite _ first, finite _ last, finite _ reflects.high.1,
    finite _ reflects.low.1, inner, outer, counted]

end Reflects

section Sums

omit [LawfulScalar α] in
theorem totals_of_made [ExactScalar α] (fits : ts.length < 2 ^ 32)
    (made : ofTrades? ts = some bar) : Totals.ofBar bar = Totals.ofTrades ts := by
  refine LiveBars.ofTrades?_induction (p := fun ts bar =>
    ts.length < 2 ^ 32 → Totals.ofBar bar = Totals.ofTrades ts) ?_ ?_ made fits
  · exact fun t _ => Totals.ofBar_ofTrade t
  · intro ts before t ih fits
    rw [List.length_append, List.length_singleton] at fits
    have earlier := ih (Nat.lt_of_succ_lt fits)
    have count : before.tradeCount.toNat = ts.length := congrArg Totals.tradeCount earlier
    rw [Totals.ofBar_add (count ▸ fits), earlier, Totals.ofTrades_append]

theorem volume_nonneg {ts : List (Trade Float)} {bar : Bar Float}
    (nonneg : ∀ t ∈ ts, Scalar.le 0 t.qty = true) (made : ofTrades? ts = some bar) :
    Scalar.le 0 bar.volume = true := by
  refine LiveBars.ofTrades?_induction (p := fun ts bar =>
    (∀ t ∈ ts, Scalar.le 0 t.qty = true) → Scalar.le 0 bar.volume = true) ?_ ?_ made nonneg
  · exact fun t nonneg => nonneg t List.mem_cons_self
  · intro ts before t ih nonneg
    rw [List.forall_mem_append, List.forall_mem_singleton] at nonneg
    exact (Binary64.add_nonneg (ih nonneg.1) nonneg.2).1

end Sums

end Bar

namespace LiveBars

variable {threshold : UInt32} (positive : 0 < threshold.toNat) {ts : List (Trade α)}
include positive

theorem made_of_mem {bar : Bar α} (member : bar ∈ liveBars threshold ts) :
    ∃ group, (∀ t ∈ group, t ∈ ts) ∧ group.length < 2 ^ 32 ∧ Bar.ofTrades? group = some bar := by
  obtain ⟨group, among, made⟩ := List.mem_filterMap.mp member
  refine ⟨group, fun t => Chunks.mem_of_mem_chunks positive among, ?_, made⟩
  exact (Chunks.length_of_mem_chunks positive among).2.trans_lt threshold.toNat_lt

theorem forall₂_reflects [LawfulScalar α] (numbers : ∀ t ∈ ts, Scalar.isNaN t.price = false) :
    List.Forall₂ (fun group bar => Bar.Reflects group bar ∧
        (ExactScalar α → Totals.ofBar bar = Totals.ofTrades group))
      (chunks threshold.toNat ts) (liveBars threshold ts) := by
  apply forall₂_liveBars positive
  intro group among bar made
  have fits : group.length < 2 ^ 32 :=
    (Chunks.length_of_mem_chunks positive among).2.trans_lt threshold.toNat_lt
  have prices : ∀ price ∈ group.map (·.price), Scalar.isNaN price = false := by
    rw [List.forall_mem_map]
    exact fun t inside => numbers t (Chunks.mem_of_mem_chunks positive among inside)
  exact ⟨Bar.reflects_of_made prices fits made, fun _ => Bar.totals_of_made fits made⟩

end LiveBars

namespace Builder.Ledger

variable {capacity : Nat} {threshold : UInt32} {l : Ledger α}

/-- A bar of the builder is from the history, where it was consistent, or it is the bar of some of
the trades. -/
theorem Balanced.cases_bar (balanced : Balanced capacity threshold l)
    (someTrades : 0 < threshold.toNat) {bar : Bar α} (member : bar ∈ l.builder.bars) :
    bar.isConsistent = true ∨
      ∃ group, (∀ t ∈ group, t ∈ l.trades) ∧ group.length < 2 ^ 32 ∧
        Bar.ofTrades? group = some bar := by
  rw [balanced.shown.bars_eq] at member
  cases List.mem_append.mp ((Newest.rtake_suffix _ _).subset member) with
  | inl older => exact .inl (balanced.consistent bar older)
  | inr live => exact .inr (LiveBars.made_of_mem someTrades live)

theorem Balanced.isConsistent_iff [LawfulScalar α] (balanced : Balanced capacity threshold l)
    (someTrades : 0 < threshold.toNat)
    (prices : ∀ t ∈ l.trades, Scalar.isNaN t.price = false ∧ Scalar.isFinite t.price = true)
    {bar : Bar α} (member : bar ∈ l.builder.bars) :
    bar.isConsistent = true ↔
      Scalar.isFinite bar.volume = true ∧ Scalar.le 0 bar.volume = true := by
  cases balanced.cases_bar someTrades member with
  | inl consistent => exact iff_of_true consistent (Bar.volume_of_isConsistent consistent)
  | inr live =>
    obtain ⟨group, among, fits, made⟩ := live
    have numbers : ∀ price ∈ group.map (·.price), Scalar.isNaN price = false := by
      rw [List.forall_mem_map]
      exact fun t inside => (prices t (among t inside)).1
    apply (Bar.reflects_of_made numbers fits made).isConsistent_iff
    rw [List.forall_mem_map]
    exact fun t inside => (prices t (among t inside)).2

end Builder.Ledger

namespace Builder

section New

variable {capacity : Nat} {threshold : UInt32} {b : Builder α}
  (made : new capacity threshold = .ok b) (ops : List (Operation α))
include made

theorem bars_of_new :
    (ops.foldl perform b).bars =
      (((Ledger.start b).enterAll ops).inserted ++
        liveBars threshold (trades ops)).rtake capacity := by
  obtain ⟨balanced, same⟩ := Ledger.balanced_of_new made ops
  have shown := balanced.shown.bars_eq
  rwa [same, balanced.capacity_eq, Ledger.builder_enterAll] at shown

theorem isConsistent_iff_of_new [LawfulScalar α]
    (prices : ∀ t ∈ trades ops, Scalar.isNaN t.price = false ∧ Scalar.isFinite t.price = true) :
    ∀ bar ∈ (ops.foldl perform b).bars, bar.isConsistent = true ↔
      Scalar.isFinite bar.volume = true ∧ Scalar.le 0 bar.volume = true := by
  obtain ⟨balanced, same⟩ := Ledger.balanced_of_new made ops
  obtain ⟨-, -, -, someTrades⟩ := shows_of_new made
  intro bar member
  apply balanced.isConsistent_iff someTrades (same ▸ prices)
  rwa [Ledger.builder_enterAll]

end New

theorem volume_nonneg_of_new {capacity : Nat} {threshold : UInt32} {b : Builder Float}
    (made : new capacity threshold = .ok b) (ops : List (Operation Float))
    (nonneg : ∀ t ∈ trades ops, Scalar.le 0 t.qty = true) :
    ∀ bar ∈ (ops.foldl perform b).bars, Scalar.le 0 bar.volume = true := by
  obtain ⟨balanced, same⟩ := Ledger.balanced_of_new made ops
  obtain ⟨-, -, -, someTrades⟩ := shows_of_new made
  intro bar member
  rw [show ops.foldl perform b = _ from (Ledger.builder_enterAll (Ledger.start b) ops).symm]
    at member
  cases balanced.cases_bar someTrades member with
  | inl consistent => exact (Bar.volume_of_isConsistent consistent).2
  | inr live =>
    obtain ⟨group, among, -, made⟩ := live
    exact Bar.volume_nonneg (fun t inside => nonneg t (same ▸ among t inside)) made

end Builder

end TradeBars
