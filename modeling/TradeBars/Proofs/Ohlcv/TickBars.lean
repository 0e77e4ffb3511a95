import TradeBars.Ohlcv.TickBars
import TradeBars.Proofs.Builder
import TradeBars.Proofs.Scalar.Binary64
import TradeBars.Proofs.TimeOrder

/-! Tick bars of archived trades against the bars of a builder that takes the same trades one
by one. The full groups give the same bars, up to the sign of a zero volume, for one of the two
sums starts at zero and the other one at the first quantity. -/
namespace TradeBars.Ohlcv

section Groups

variable {β γ : Type} {n : Nat}

theorem groups_of_le (positive : 0 < n) {xs : List β} (enough : n ≤ xs.length) :
    groups n xs = xs.take n :: groups n (xs.drop n) := by
  rw [groups, if_neg]
  omega

theorem groups_of_lt {xs : List β} (short : xs.length < n) : groups n xs = [] := by
  rw [groups, if_pos (.inr short)]

theorem groups_eq (positive : 0 < n) (xs : List β) : groups n xs =
    (List.range (xs.length / n)).map fun i => (xs.drop (n * i)).take n := by
  by_cases enough : n ≤ xs.length
  · have count : xs.length / n = (xs.drop n).length / n + 1 := by
      rw [List.length_drop, Nat.div_eq_sub_div positive enough]
    rw [groups_of_le positive enough, groups_eq positive (xs.drop n), count,
      List.range_succ_eq_map, List.map_cons, List.map_map, Nat.mul_zero, List.drop_zero]
    congr 1
    apply List.map_congr_left
    intro i _
    rw [Function.comp_apply, List.drop_drop, Nat.mul_succ, Nat.add_comm]
  · rw [groups_of_lt (Nat.lt_of_not_le enough), Nat.div_eq_of_lt (Nat.lt_of_not_le enough)]
    rfl
termination_by xs.length
decreasing_by
  rw [List.length_drop]
  omega

theorem groups_map (positive : 0 < n) (f : β → γ) (xs : List β) :
    groups n (xs.map f) = (groups n xs).map (List.map f) := by
  rw [groups_eq positive, groups_eq positive, List.length_map, List.map_map]
  apply List.map_congr_left
  intro i _
  rw [Function.comp_apply, List.map_take, List.map_drop]

theorem getElem?_groups (positive : 0 < n) {xs group : List β} {i : Nat} :
    (groups n xs)[i]? = some group ↔
      n * i + n ≤ xs.length ∧ (xs.drop (n * i)).take n = group := by
  have inside : i < xs.length / n ↔ n * i + n ≤ xs.length := by
    rw [← Nat.succ_le_iff, Nat.le_div_iff_mul_le positive, Nat.succ_mul, Nat.mul_comm]
  rw [groups_eq positive, List.getElem?_map, ← inside]
  by_cases within : i < xs.length / n <;> simp [within]

theorem length_of_mem_groups (positive : 0 < n) {xs group : List β} (member : group ∈ groups n xs) :
    group.length = n := by
  obtain ⟨i, found⟩ := List.getElem?_of_mem member
  obtain ⟨inside, rfl⟩ := (getElem?_groups positive).mp found
  rw [List.length_take, List.length_drop]
  omega

theorem mem_of_mem_groups (positive : 0 < n) {xs group : List β} {x : β}
    (member : group ∈ groups n xs) (inside : x ∈ group) : x ∈ xs := by
  obtain ⟨i, found⟩ := List.getElem?_of_mem member
  obtain ⟨-, rfl⟩ := (getElem?_groups positive).mp found
  exact List.mem_of_mem_drop (List.mem_of_mem_take inside)

/-- The consecutive groups are the full ones, and one more if something is left. -/
theorem chunks_eq_groups (positive : 0 < n) (xs : List β) : chunks n xs =
    groups n xs ++ [xs.drop (n * (xs.length / n))].filter (· ≠ []) := by
  have split := Nat.div_add_mod xs.length n
  by_cases whole : xs.length % n = 0
  · have count : xs.length ⌈/⌉ n = xs.length / n := by
      rw [whole] at split
      conv_lhs => rw [← split]
      exact smul_ceilDiv positive _
    have noRest : xs.drop (n * (xs.length / n)) = [] := List.drop_of_length_le (by omega)
    rw [noRest, chunks, count, groups_eq positive]
    simp
  · have short := Nat.mod_lt xs.length positive
    have rest : xs.drop (n * (xs.length / n)) ≠ [] := by
      rw [List.ne_nil_iff_length_pos, List.length_drop]
      omega
    have lower : n * (xs.length / n) < xs.length := by omega
    have upper : xs.length ≤ n * (xs.length / n + 1) := by
      rw [Nat.mul_succ]
      omega
    rw [Chunks.chunks_eq_concat lower upper, groups_eq positive]
    simp [rest]

end Groups

section Prints

variable {α : Type}

def Print.ofTrade (t : Trade α) : Print α := ⟨t.timestamp, t.price, t.qty⟩

def Print.row (p : Print α) : TradeRow α := ⟨p.timestamp, some p.price, some p.qty⟩

theorem Print.row_injective : Function.Injective (Print.row : Print α → TradeRow α) := by
  rintro ⟨_, _, _⟩ ⟨_, _, _⟩ same
  cases same
  rfl

variable [Scalar α]

theorem of_values? {r : TradeRow α} {price qty : α} (found : r.values? = some (price, qty)) :
    r.price = some price ∧ r.qty = some qty ∧ Scalar.isNaN qty = false := by
  unfold TradeRow.values? at found
  split at found
  · next _ _ hp hq =>
    cases found
    exact ⟨(Scalar.present_eq_some_iff.mp hp).1, Scalar.present_eq_some_iff.mp hq⟩
  · contradiction

theorem map_row_ofRow? (r : TradeRow α) :
    (Print.ofRow? r).map Print.row = Option.guard (·.values?.isSome) r := by
  unfold Print.ofRow?
  cases found : r.values? with
  | none => simp [Option.guard, found]
  | some values =>
    obtain ⟨price, qty, -⟩ := of_values? found
    simp [Option.guard, found, Print.row, ← price, ← qty]

/-- The rows may be put in order before those that do not count are left out. -/
theorem tickBars_eq_filterMap {size : Nat} (nonzero : size ≠ 0) (rows : List (TradeRow α)) :
    tickBars rows size =
      .ok ((groups size ((inTimeOrder (·.timestamp) rows).filterMap Print.ofRow?)).filterMap
        ofGroup?) := by
  have keeps (r : TradeRow α) (p : Print α) (made : Print.ofRow? r = some p) :
      p.timestamp = r.timestamp := by
    obtain ⟨_, -, rfl⟩ := Option.map_eq_some_iff.mp made
    rfl
  rw [tickBars, if_neg nonzero, TimeOrder.filterMap_inTimeOrder _ keeps]

/-- Trades that are read off the rows with both values, in the order of time. -/
def Reads (ts : List (Trade α)) (rows : List (TradeRow α)) : Prop :=
  StableOrder (fun a b => a.timestamp ≤ b.timestamp) (ts.map Trade.row)
    (rows.filter (·.values?.isSome))

variable {ts : List (Trade α)} {rows : List (TradeRow α)} (read : Reads ts rows)
include read

theorem prints_eq :
    inTimeOrder (·.timestamp) (rows.filterMap Print.ofRow?) = ts.map Print.ofTrade := by
  apply List.map_injective_iff.mpr Print.row_injective
  calc (inTimeOrder (·.timestamp) (rows.filterMap Print.ofRow?)).map Print.row
    _ = inTimeOrder (·.timestamp) ((rows.filterMap Print.ofRow?).map Print.row) :=
      TimeOrder.map_inTimeOrder TradeRow.timestamp Print.row _
    _ = inTimeOrder (·.timestamp) (rows.filter (·.values?.isSome)) := by
      simp only [List.map_filterMap, map_row_ofRow?, List.filterMap_eq_filter]
    _ = ts.map Trade.row := (TimeOrder.eq_inTimeOrder TradeRow.timestamp read).symm
    _ = (ts.map Print.ofTrade).map Print.row := by
      rw [List.map_map]
      rfl

theorem isNaN_qty {t : Trade α} (member : t ∈ ts) : Scalar.isNaN t.qty = false := by
  have row := List.mem_map_of_mem (f := Trade.row) member
  rw [read.perm.mem_iff, List.mem_filter] at row
  obtain ⟨values, found⟩ := Option.isSome_iff_exists.mp row.2
  obtain ⟨-, qty, number⟩ := of_values? found
  exact Option.some.inj qty ▸ number

end Prints

section Group

variable {α : Type} [Scalar α]

/-- Two bars of the same prices and volume, whatever the sign of a zero volume. -/
structure Agrees (bar : Ohlcv α) (live : Bar α) : Prop where
  openPrice : bar.openPrice = live.openPrice
  high : bar.high = live.high
  low : bar.low = live.low
  close : bar.close = live.close
  volume : Scalar.Same bar.volume live.volume

theorem openPrice_foldl (ts : List (Trade α)) (b : Bar α) :
    (ts.foldl Bar.add b).openPrice = b.openPrice := by
  induction ts generalizing b with
  | nil => rfl
  | cons t ts ih => exact ih _

theorem high_foldl (ts : List (Trade α)) (b : Bar α) :
    (ts.foldl Bar.add b).high = (ts.map (·.price)).foldl Scalar.larger b.high := by
  rw [List.foldl_map]
  exact (List.foldl_hom Bar.high fun _ _ => rfl).symm

theorem low_foldl (ts : List (Trade α)) (b : Bar α) :
    (ts.foldl Bar.add b).low = (ts.map (·.price)).foldl Scalar.smaller b.low := by
  rw [List.foldl_map]
  exact (List.foldl_hom Bar.low fun _ _ => rfl).symm

theorem volume_foldl (ts : List (Trade α)) (b : Bar α) :
    (ts.foldl Bar.add b).volume = (ts.map (·.qty)).foldl (· + ·) b.volume := by
  rw [List.foldl_map]
  exact (List.foldl_hom Bar.volume fun _ _ => rfl).symm

theorem close_foldl (ts : List (Trade α)) (b : Bar α) :
    (ts.foldl Bar.add b).close = (ts.getLast?.map (·.price)).getD b.close := by
  induction ts generalizing b with
  | nil => rfl
  | cons t ts ih =>
    rw [List.foldl_cons, ih, List.getLast?_cons]
    cases ts.getLast? <;> rfl

theorem ofGroup?_agrees [LawfulScalar α] {group : List (Trade α)} {live : Bar α}
    (numbers : ∀ t ∈ group, Scalar.isNaN t.qty = false) (made : Bar.ofTrades? group = some live) :
    ∃ bar, ofGroup? (group.map Print.ofTrade) = some bar ∧ Agrees bar live ∧
      group.getLast?.map (·.timestamp) = some bar.timestamp := by
  cases group with
  | nil => contradiction
  | cons t ts =>
    cases made
    have last : (ts.map Print.ofTrade).getLast?.getD (Print.ofTrade t) =
        Print.ofTrade (ts.getLast?.getD t) := by
      rw [List.getLast?_map, Option.getD_map]
    have prices : (ts.map Print.ofTrade).map (·.price) = ts.map (·.price) := by
      rw [List.map_map]
      rfl
    have qtys : (ts.map Print.ofTrade).map (·.qty) = ts.map (·.qty) := by
      rw [List.map_map]
      rfl
    -- the one sum starts at zero, and the other one at the first quantity
    have first : Scalar.Same (0 + t.qty) t.qty :=
      LawfulScalar.zero_add_same (numbers t List.mem_cons_self)
    refine ⟨_, rfl, ⟨?_, ?_, ?_, ?_, ?_⟩, ?_⟩
    · exact (openPrice_foldl ts (Bar.ofTrade t)).symm
    · rw [high_foldl, ← prices]
      rfl
    · rw [low_foldl, ← prices]
      rfl
    · rw [close_foldl, last]
      cases ts.getLast? <;> rfl
    · rw [volume_foldl, ← qtys]
      exact first.foldl _
    · rw [List.getLast?_cons, last]
      rfl

end Group

section Agree

variable {α : Type} [Scalar α] {threshold : UInt32} (positive : 0 < threshold.toNat)
  (ts : List (Trade α))
include positive

/-- Every full group has a bar. -/
theorem isSome_of_mem_groups {group : List (Trade α)} (member : group ∈ groups threshold.toNat ts) :
    (Bar.ofTrades? group).isSome := by
  have length := length_of_mem_groups positive member
  obtain ⟨bar, made⟩ := LiveBars.ofTrades?_isSome (List.ne_nil_of_length_pos (length ▸ positive))
  exact Option.isSome_of_eq_some made

/-- The bars of the full groups, and the unfinished one. -/
theorem liveBars_eq_groups : liveBars threshold ts =
    (groups threshold.toNat ts).filterMap Bar.ofTrades? ++
      (Bar.ofTrades? (ts.drop (threshold.toNat * (ts.length / threshold.toNat)))).toList := by
  rw [liveBars, chunks_eq_groups positive, List.filterMap_append]
  congr 1
  cases ts.drop (threshold.toNat * (ts.length / threshold.toNat)) <;> rfl

omit [Scalar α] in
/-- What is left after the full groups. -/
theorem length_rest : (ts.drop (threshold.toNat * (ts.length / threshold.toNat))).length <
    threshold.toNat := by
  have split := Nat.div_add_mod ts.length threshold.toNat
  have := Nat.mod_lt ts.length positive
  rw [List.length_drop]
  omega

theorem tradeCount_of_mem_groups {group : List (Trade α)} {bar : Bar α}
    (member : group ∈ groups threshold.toNat ts) (made : Bar.ofTrades? group = some bar) :
    bar.tradeCount = threshold := by
  have length := length_of_mem_groups positive member
  have count := LiveBars.tradeCount_ofTrades? (length ▸ threshold.toNat_lt) made
  exact UInt32.toNat_inj.mp (count.trans length)

theorem tradeCount_of_rest {bar : Bar α}
    (made : Bar.ofTrades? (ts.drop (threshold.toNat * (ts.length / threshold.toNat))) = some bar) :
    bar.tradeCount ≠ threshold := by
  have short := length_rest positive ts
  have count := LiveBars.tradeCount_ofTrades? (short.trans threshold.toNat_lt) made
  rintro rfl
  omega

theorem filter_liveBars : (liveBars threshold ts).filter (·.tradeCount = threshold) =
    (groups threshold.toNat ts).filterMap Bar.ofTrades? := by
  rw [liveBars_eq_groups positive, List.filter_append, List.filter_eq_self.mpr,
    List.filter_eq_nil_iff.mpr, List.append_nil]
  · intro bar member
    rw [Option.mem_toList] at member
    simpa using tradeCount_of_rest positive ts member
  · intro bar member
    obtain ⟨group, inside, made⟩ := List.mem_filterMap.mp member
    simpa using tradeCount_of_mem_groups positive ts inside made

variable {rows : List (TradeRow α)} (read : Reads ts rows)
include read

theorem tickBars_eq : tickBars rows threshold.toNat =
    .ok ((groups threshold.toNat ts).filterMap fun group => ofGroup? (group.map Print.ofTrade)) := by
  rw [tickBars, if_neg positive.ne']
  simp only [prints_eq read, groups_map positive, List.filterMap_map, Function.comp_def]

theorem agrees_of_mem_groups [LawfulScalar α] {group : List (Trade α)}
    (member : group ∈ groups threshold.toNat ts) : ∃ bar live,
      ofGroup? (group.map Print.ofTrade) = some bar ∧ Bar.ofTrades? group = some live ∧
        Agrees bar live ∧ group.getLast?.map (·.timestamp) = some bar.timestamp := by
  have numbers : ∀ t ∈ group, Scalar.isNaN t.qty = false :=
    fun t inside => isNaN_qty read (mem_of_mem_groups positive member inside)
  obtain ⟨live, made⟩ := Option.isSome_iff_exists.mp (isSome_of_mem_groups positive ts member)
  obtain ⟨bar, batch, same, last⟩ := ofGroup?_agrees numbers made
  exact ⟨bar, live, batch, made, same, last⟩

end Agree

end TradeBars.Ohlcv
