import TradeBars.Proofs.Scalar.Binary64
import TradeBars.Proofs.Scalar.Exact
import TradeBars.Ohlcv.DollarBars
import TradeBars.Proofs.TimeOrder

/-! Dollar bars are the greedy partition of the entries: a bar for each shortest stretch
whose values come to the dollar size, and none for what is left after the last of them. -/
namespace TradeBars.Ohlcv

variable {α : Type} [Scalar α]

/-- The value of entries in turn, from zero on. -/
def total (es : List (Entry α)) : α := Scalar.sum (es.map (·.value))

/-- The sums that run over the entries do not come to the threshold. -/
def Below (threshold : α) (es : List (Entry α)) : Prop :=
  ∀ front, front ≠ [] → front <+: es → Scalar.lt (total front) threshold = true

/-- The bar of entries of which the last one reaches the threshold. -/
structure Closes (threshold : α) (run : List (Entry α)) (bar : Ohlcv α) : Prop where
  below : Below threshold run.dropLast
  reached : Scalar.le threshold (total run) = true
  last : run.getLast?.map (fun e => (e.timestamp, e.close)) = some (bar.timestamp, bar.close)
  volume : bar.volume = Scalar.sum (run.map (·.volume))
  high : bar.high = Scalar.larger bar.openPrice bar.close
  low : bar.low = Scalar.smaller bar.openPrice bar.close

/-- The bar of entries of which the last one ends the run. Values that are not numbers are not
below the threshold, so that they may end it too. -/
structure Ends (threshold : α) (run : List (Entry α)) (bar : Ohlcv α) : Prop where
  below : Below threshold run.dropLast
  notBelow : Scalar.lt (total run) threshold = false
  last : run.getLast?.map (fun e => (e.timestamp, e.close)) = some (bar.timestamp, bar.close)
  volume : bar.volume = Scalar.sum (run.map (·.volume))
  high : bar.high = Scalar.larger bar.openPrice bar.close
  low : bar.low = Scalar.smaller bar.openPrice bar.close

/-- Consecutive runs that have ended with a bar, and the entries left over. -/
structure Cut (Ended : List (Entry α) → Ohlcv α → Prop) (threshold : α) (es : List (Entry α))
    (runs : List (List (Entry α))) (rest : List (Entry α)) (bars : List (Ohlcv α)) : Prop where
  parts : es = runs.flatten ++ rest
  ended : List.Forall₂ Ended runs bars
  below : Below threshold rest

/-- The bars of consecutive runs, and the entries left over. -/
structure Greedy (threshold : α) (es : List (Entry α)) (runs : List (List (Entry α)))
    (rest : List (Entry α)) (bars : List (Ohlcv α)) : Prop where
  parts : es = runs.flatten ++ rest
  closes : List.Forall₂ (Closes threshold) runs bars
  below : Below threshold rest

section Run

/-- What a run has gathered from its entries, none of which closed it. -/
structure Run.Gathers (r : Run α) (threshold : α) (es : List (Entry α)) : Prop where
  value : r.value = total es
  volume : r.volume = Scalar.sum (es.map (·.volume))
  below : Below threshold es

variable {threshold : α}

theorem below_nil : Below threshold ([] : List (Entry α)) :=
  fun _ nonempty inside => absurd (List.prefix_nil.mp inside) nonempty

theorem Run.gathers_empty : Run.empty.Gathers threshold ([] : List (Entry α)) :=
  ⟨rfl, rfl, below_nil⟩

theorem Below.concat {es : List (Entry α)} {e : Entry α} (below : Below threshold es)
    (less : Scalar.lt (total (es ++ [e])) threshold = true) : Below threshold (es ++ [e]) := by
  intro front nonempty inside
  cases List.prefix_concat_iff.mp inside with
  | inl all => rw [all]; exact less
  | inr before => exact below front nonempty before

variable {r : Run α} {es : List (Entry α)} (gathers : r.Gathers threshold es) (e : Entry α)
include gathers

theorem Run.Gathers.value_concat : r.value + e.value = total (es ++ [e]) := by
  rw [gathers.value, total, total, List.map_append, List.map_singleton, Scalar.sum_concat]

theorem Run.Gathers.volume_concat :
    r.volume + e.volume = Scalar.sum ((es ++ [e]).map (·.volume)) := by
  rw [gathers.volume, List.map_append, List.map_singleton, Scalar.sum_concat]

/-- An entry either goes into the run, or it ends the run and an empty one begins. -/
theorem Run.Gathers.push :
    (∃ after, r.push threshold e = (none, after) ∧ after.Gathers threshold (es ++ [e])) ∨
      ∃ bar, r.push threshold e = (some bar, .empty) ∧ Ends threshold (es ++ [e]) bar := by
  unfold Run.push
  rw [gathers.value_concat, gathers.volume_concat]
  by_cases less : Scalar.lt (total (es ++ [e])) threshold = true
  · rw [if_pos less]
    exact .inl ⟨_, rfl, ⟨rfl, rfl, gathers.below.concat less⟩⟩
  · rw [if_neg less]
    refine .inr ⟨_, rfl, ⟨?_, Bool.eq_false_iff.mpr less, ?_, rfl, rfl, rfl⟩⟩
    · rw [List.dropLast_concat]
      exact gathers.below
    · rw [List.getLast?_concat, Option.map_some]

end Run

section Bars

variable {threshold : α}

/-- If each step on a run keeps what is known of it, or ends it with a bar of a certain kind, the
bars cut the entries into runs of that kind. -/
theorem Run.bars_cut (Gathered : Run α → List (Entry α) → Prop)
    {Ended : List (Entry α) → Ohlcv α → Prop}
    (push : ∀ {r : Run α} {es : List (Entry α)}, Gathered r es → ∀ e,
      (∃ after, r.push threshold e = (none, after) ∧ Gathered after (es ++ [e])) ∨
        ∃ bar, r.push threshold e = (some bar, .empty) ∧ Ended (es ++ [e]) bar)
    (below : ∀ {r : Run α} {es : List (Entry α)}, Gathered r es → Below threshold es)
    (empty : Gathered .empty []) {r : Run α} {gathered : List (Entry α)}
    (start : Gathered r gathered) (es : List (Entry α)) :
    ∃ runs rest, Cut Ended threshold (gathered ++ es) runs rest (Run.bars threshold r es) := by
  -- the entries to come get fewer, and each of them is gathered or ends the run
  induction es generalizing r gathered with
  | nil => exact ⟨[], gathered, by simp, .nil, below start⟩
  | cons e es ih =>
    have regroup : gathered ++ e :: es = (gathered ++ [e]) ++ es := by simp
    rw [regroup, Run.bars]
    rcases push start e with ⟨after, pushed, gathers⟩ | ⟨bar, pushed, ends⟩
    · rw [pushed]
      exact ih gathers
    · rw [pushed]
      obtain ⟨runs, rest, cut⟩ := ih empty
      refine ⟨(gathered ++ [e]) :: runs, rest, ?_, .cons ends cut.ended, cut.below⟩
      have parts : es = runs.flatten ++ rest := cut.parts
      rw [List.flatten_cons, List.append_assoc _ runs.flatten, ← parts]

theorem Cut.imp {Ended Ended' : List (Entry α) → Ohlcv α → Prop} {es rest : List (Entry α)}
    {runs : List (List (Entry α))} {bars : List (Ohlcv α)}
    (cut : Cut Ended threshold es runs rest bars)
    (implies : ∀ run bar, Ended run bar → Ended' run bar) :
    Cut Ended' threshold es runs rest bars := { cut with ended := cut.ended.imp implies }

/-- What holds of all entries holds of those of each run. -/
theorem Cut.ended_and {Ended : List (Entry α) → Ohlcv α → Prop} {P : Entry α → Prop}
    {es rest : List (Entry α)} {runs : List (List (Entry α))} {bars : List (Ohlcv α)}
    (cut : Cut Ended threshold es runs rest bars) (all : ∀ e ∈ es, P e) :
    List.Forall₂ (fun run bar => (∀ e ∈ run, P e) ∧ Ended run bar) runs bars := by
  rw [List.forall₂_and_left]
  refine ⟨?_, cut.ended⟩
  intro run member e inside
  apply all
  rw [cut.parts]
  exact List.mem_append_left _ (List.mem_flatten.mpr ⟨run, member, inside⟩)

theorem Run.bars_ends (threshold : α) (es : List (Entry α)) :
    ∃ runs rest, Cut (Ends threshold) threshold es runs rest (Run.bars threshold .empty es) :=
  Run.bars_cut (fun r es => r.Gathers threshold es) Gathers.push Gathers.below
    gathers_empty gathers_empty es

variable [LawfulScalar α] (size : Scalar.isNaN threshold = false)
include size

theorem Ends.reached {run : List (Entry α)} {bar : Ohlcv α} (ends : Ends threshold run bar)
    (number : Scalar.isNaN (total run) = false) : Scalar.le threshold (total run) = true :=
  (Scalar.le_iff size number).mpr ends.notBelow

theorem Ends.closes {run : List (Entry α)} {bar : Ohlcv α} (ends : Ends threshold run bar)
    (finite : ∀ e ∈ run, Scalar.isFinite e.value = true) : Closes threshold run bar := by
  have number : Scalar.isNaN (total run) = false := by
    apply Scalar.isNaN_sum
    intro x member
    obtain ⟨e, inside, rfl⟩ := List.mem_map.mp member
    exact finite e inside
  exact { ends with reached := ends.reached size number }

theorem Cut.greedy {es rest : List (Entry α)} {runs : List (List (Entry α))}
    {bars : List (Ohlcv α)} (cut : Cut (Ends threshold) threshold es runs rest bars)
    (finite : ∀ e ∈ es, Scalar.isFinite e.value = true) : Greedy threshold es runs rest bars where
  parts := cut.parts
  closes := (cut.ended_and finite).imp fun _ _ ⟨finite, ends⟩ => ends.closes size finite
  below := cut.below

theorem Run.bars_greedy {es : List (Entry α)}
    (finite : ∀ e ∈ es, Scalar.isFinite e.value = true) :
    ∃ runs rest, Greedy threshold es runs rest (Run.bars threshold .empty es) := by
  obtain ⟨runs, rest, cut⟩ := Run.bars_ends threshold es
  exact ⟨runs, rest, cut.greedy size finite⟩

end Bars

section Volume

variable {threshold : α} {es rest : List (Entry α)} {runs : List (List (Entry α))}
  {bars : List (Ohlcv α)}

theorem volume_bars (closes : List.Forall₂ (Closes threshold) runs bars) :
    bars.map (·.volume) = runs.map fun run => Scalar.sum (run.map (·.volume)) := by
  induction closes with
  | nil => rfl
  | cons closes _ ih => rw [List.map_cons, List.map_cons, closes.volume, ih]

/-- Nothing of the volume is lost or counted twice. -/
theorem Greedy.volume [ExactScalar α] (greedy : Greedy threshold es runs rest bars) :
    Scalar.sum (bars.map (·.volume)) + Scalar.sum (rest.map (·.volume)) =
      Scalar.sum (es.map (·.volume)) := by
  rw [greedy.parts, List.map_append, Scalar.sum_append, List.map_flatten, Scalar.sum_flatten,
    List.map_map, volume_bars greedy.closes]
  rfl

end Volume

section Sources

open Scalar (Recorded)

/-- The entries of rows in turn. A row with a price and a quantity counts with their product, and
one that misses either of them has no entry. -/
inductive Entries : List (TradeRow α) → List (Entry α) → Prop where
  | nil : Entries [] []
  | traded {r : TradeRow α} {rows : List (TradeRow α)} {es : List (Entry α)} {price qty : α} :
      Recorded r.price price → Recorded r.qty qty → Entries rows es →
      Entries (r :: rows) (⟨r.timestamp, price, price, price * qty, qty⟩ :: es)
  | missing {r : TradeRow α} {rows : List (TradeRow α)} {es : List (Entry α)} :
      (∀ price qty, ¬ (Recorded r.price price ∧ Recorded r.qty qty)) → Entries rows es →
      Entries (r :: rows) es

theorem values?_eq_some_iff {r : TradeRow α} {price qty : α} :
    r.values? = some (price, qty) ↔ Recorded r.price price ∧ Recorded r.qty qty := by
  rw [← Scalar.present_eq_some_iff, ← Scalar.present_eq_some_iff, TradeRow.values?]
  split <;> simp_all

theorem ofRow?_eq_some_iff {r : TradeRow α} {e : Entry α} :
    Entry.ofRow? r = some e ↔ ∃ price qty, (Recorded r.price price ∧ Recorded r.qty qty) ∧
      ⟨r.timestamp, price, price, price * qty, qty⟩ = e := by
  simp only [Entry.ofRow?, Option.map_eq_some_iff, Prod.exists, values?_eq_some_iff]

theorem ofRow?_eq_none_iff {r : TradeRow α} :
    Entry.ofRow? r = none ↔ ∀ price qty, ¬ (Recorded r.price price ∧ Recorded r.qty qty) := by
  rw [Entry.ofRow?, Option.map_eq_none_iff]
  simp only [← values?_eq_some_iff, Option.eq_none_iff_forall_not_mem, Option.mem_def, Prod.forall]

theorem entries_iff {rows : List (TradeRow α)} {es : List (Entry α)} :
    Entries rows es ↔ rows.filterMap Entry.ofRow? = es := by
  constructor
  · intro entries
    induction entries with
    | nil => rfl
    | traded price qty _ ih =>
      rw [List.filterMap_cons_some (ofRow?_eq_some_iff.mpr ⟨_, _, ⟨price, qty⟩, rfl⟩), ih]
    | missing missing _ ih => rw [List.filterMap_cons_none (ofRow?_eq_none_iff.mpr missing), ih]
  · rintro rfl
    induction rows with
    | nil => exact .nil
    | cons r rows ih =>
      cases entry : Entry.ofRow? r with
      | none =>
        rw [List.filterMap_cons_none entry]
        exact .missing (ofRow?_eq_none_iff.mp entry) ih
      | some e =>
        rw [List.filterMap_cons_some entry]
        obtain ⟨_, _, ⟨price, qty⟩, rfl⟩ := ofRow?_eq_some_iff.mp entry
        exact .traded price qty ih

/-- What holds of the entries of rows holds of them in the order of time. -/
theorem forall_mem_ofRows {P : Entry α → Prop} {rows : List (TradeRow α)}
    (all : ∀ r ∈ rows, ∀ e, Entry.ofRow? r = some e → P e) :
    ∀ e ∈ (inTimeOrder (·.timestamp) rows).filterMap Entry.ofRow?, P e := by
  intro e member
  obtain ⟨r, inside, entry⟩ := List.mem_filterMap.mp member
  exact all r ((TimeOrder.mem_inTimeOrder _).mp inside) e entry

theorem forall_mem_ofBars {P : Entry α → Prop} {olds : List (Ohlcv α)}
    (all : ∀ old ∈ olds, P (Entry.ofBar old)) :
    ∀ e ∈ (inTimeOrder (·.timestamp) olds).map Entry.ofBar, P e := by
  intro e member
  obtain ⟨old, inside, rfl⟩ := List.mem_map.mp member
  exact all old ((TimeOrder.mem_inTimeOrder _).mp inside)

variable {size : String} {d : DollarSize} (read : DollarSize.read size = .ok d)
include read

theorem dollarBarsOfRows_eq (rows : List (TradeRow α)) : dollarBarsOfRows rows size =
    .ok (Run.bars d.value .empty ((inTimeOrder (·.timestamp) rows).filterMap Entry.ofRow?)) := by
  rw [dollarBarsOfRows, read]
  rfl

theorem dollarBarsOfBars_eq (bars : List (Ohlcv α)) : dollarBarsOfBars bars size =
    .ok (Run.bars d.value .empty ((inTimeOrder (·.timestamp) bars).map Entry.ofBar)) := by
  rw [dollarBarsOfBars, read]
  rfl

variable [LawfulScalar α]

theorem dollarBarsOfRows_greedy (rows : List (TradeRow α))
    (finite : ∀ r ∈ rows, ∀ price qty, Recorded r.price price → Recorded r.qty qty →
      Scalar.isFinite (price * qty) = true) :
    ∃ ordered es runs rest bars, StableOrder (fun a b => a.timestamp ≤ b.timestamp) ordered rows ∧
      Entries ordered es ∧ dollarBarsOfRows rows size = .ok bars ∧
      Greedy d.value es runs rest bars := by
  have values : ∀ e ∈ (inTimeOrder (·.timestamp) rows).filterMap Entry.ofRow?,
      Scalar.isFinite e.value = true := by
    apply forall_mem_ofRows
    intro r inside e entry
    obtain ⟨_, _, ⟨price, qty⟩, rfl⟩ := ofRow?_eq_some_iff.mp entry
    exact finite r inside _ _ price qty
  obtain ⟨runs, rest, greedy⟩ :=
    Run.bars_greedy (LawfulScalar.isNaN_ofInt _ : Scalar.isNaN (d.value : α) = false) values
  exact ⟨_, _, runs, rest, _, TimeOrder.stableOrder_inTimeOrder _ rows, entries_iff.mpr rfl,
    dollarBarsOfRows_eq read rows, greedy⟩

theorem dollarBarsOfBars_greedy (olds : List (Ohlcv α))
    (finite : ∀ old ∈ olds, Scalar.isFinite (old.close * old.volume) = true) :
    ∃ ordered es runs rest bars, StableOrder (fun a b => a.timestamp ≤ b.timestamp) ordered olds ∧
      es = ordered.map (fun b => ⟨b.timestamp, b.openPrice, b.close, b.close * b.volume, b.volume⟩) ∧
      dollarBarsOfBars olds size = .ok bars ∧ Greedy d.value es runs rest bars := by
  obtain ⟨runs, rest, greedy⟩ :=
    Run.bars_greedy (LawfulScalar.isNaN_ofInt _ : Scalar.isNaN (d.value : α) = false)
      (forall_mem_ofBars finite)
  exact ⟨_, _, runs, rest, _, TimeOrder.stableOrder_inTimeOrder _ olds, rfl,
    dollarBarsOfBars_eq read olds, greedy⟩

end Sources

/-- Dollar bars of trades and of bars over time cut their entries, sorted by timestamp, each
time the value since the last cut has come to the dollar size; in exact arithmetic their
volumes and what is left over make up the whole volume. -/
theorem dollarBars_partition {size : String} {d : DollarSize} (read : DollarSize.read size = .ok d) :
    (∀ rows : List (TradeRow Float),
      (∀ r ∈ rows, ∀ price qty, Scalar.Recorded r.price price → Scalar.Recorded r.qty qty →
        (price * qty).isFinite = true) →
      ∃ ordered es runs rest bars,
        StableOrder (fun a b => a.timestamp ≤ b.timestamp) ordered rows ∧
        Entries ordered es ∧ dollarBarsOfRows rows size = .ok bars ∧
        Greedy d.value es runs rest bars) ∧
    (∀ olds : List (Ohlcv Float), (∀ old ∈ olds, (old.close * old.volume).isFinite = true) →
      ∃ ordered es runs rest bars,
        StableOrder (fun a b => a.timestamp ≤ b.timestamp) ordered olds ∧
        es = ordered.map
          (fun b => ⟨b.timestamp, b.openPrice, b.close, b.close * b.volume, b.volume⟩) ∧
        dollarBarsOfBars olds size = .ok bars ∧ Greedy d.value es runs rest bars) ∧
    ∀ (K : Type) [Field K] [LinearOrder K],
      (∀ rows : List (TradeRow (Exact K)), ∃ ordered es runs rest bars,
        StableOrder (fun a b => a.timestamp ≤ b.timestamp) ordered rows ∧
        Entries ordered es ∧ dollarBarsOfRows rows size = .ok bars ∧
        Greedy d.value es runs rest bars ∧
        Scalar.sum (bars.map (·.volume)) + Scalar.sum (rest.map (·.volume)) =
          Scalar.sum (es.map (·.volume))) ∧
      ∀ olds : List (Ohlcv (Exact K)), ∃ ordered es runs rest bars,
        StableOrder (fun a b => a.timestamp ≤ b.timestamp) ordered olds ∧
        es = ordered.map
          (fun b => ⟨b.timestamp, b.openPrice, b.close, b.close * b.volume, b.volume⟩) ∧
        dollarBarsOfBars olds size = .ok bars ∧ Greedy d.value es runs rest bars ∧
        Scalar.sum (bars.map (·.volume)) + Scalar.sum (rest.map (·.volume)) =
          Scalar.sum (ordered.map (·.volume)) := by
  refine ⟨dollarBarsOfRows_greedy read, dollarBarsOfBars_greedy read, ?_⟩
  intro K _ _
  constructor
  · intro rows
    obtain ⟨ordered, es, runs, rest, bars, order, entries, made, greedy⟩ :=
      dollarBarsOfRows_greedy read rows fun _ _ _ _ _ _ => rfl
    exact ⟨ordered, es, runs, rest, bars, order, entries, made, greedy, greedy.volume⟩
  · intro olds
    obtain ⟨ordered, _, runs, rest, bars, order, rfl, made, greedy⟩ :=
      dollarBarsOfBars_greedy read olds fun _ _ => rfl
    have volume := greedy.volume
    rw [List.map_map] at volume
    exact ⟨ordered, _, runs, rest, bars, order, rfl, made, greedy, volume⟩

/-- Of five rows against the order of time two have no entry; the first two entries make a bar and
the third is left over. -/
theorem dollarBars_partition_three :
    let rows : List (TradeRow Float) := [⟨9, some 2, some 1⟩, ⟨8, some 1, some (0 / 0)⟩,
      ⟨7, some 1, some 1⟩, ⟨6, none, some 2⟩, ⟨5, some 2, some 1⟩]
    let bar : Ohlcv Float := ⟨7, 2, 2, 1, 1, 2⟩
    DollarSize.read "3" = .ok ⟨3⟩ ∧
      (∀ r ∈ rows, ∀ price qty, Scalar.Recorded r.price price → Scalar.Recorded r.qty qty →
        (price * qty).isFinite = true) ∧
      dollarBarsOfRows rows "3" = .ok [bar] ∧
      Greedy (DollarSize.value ⟨3⟩) [⟨5, 2, 2, 2, 1⟩, ⟨7, 1, 1, 1, 1⟩, ⟨9, 2, 2, 2, 1⟩]
        [[⟨5, 2, 2, 2, 1⟩, ⟨7, 1, 1, 1, 1⟩]] [⟨9, 2, 2, 2, 1⟩] [bar] := by
  intro rows bar
  have read : DollarSize.read "3" = .ok ⟨3⟩ := by decide
  have finite : ∀ r ∈ rows, ∀ price qty, Scalar.Recorded r.price price →
      Scalar.Recorded r.qty qty → (price * qty).isFinite = true := by
    simp only [rows, List.forall_mem_cons]
    refine ⟨?_, ?_, ?_, ?_, ?_, nofun⟩
    · rintro _ _ ⟨⟨⟩, -⟩ ⟨⟨⟩, -⟩
      rfl
    · rintro _ _ ⟨⟨⟩, -⟩ ⟨⟨⟩, number⟩
      contradiction
    · rintro _ _ ⟨⟨⟩, -⟩ ⟨⟨⟩, -⟩
      rfl
    · rintro _ _ ⟨⟨⟩, -⟩ ⟨⟨⟩, -⟩
    · rintro _ _ ⟨⟨⟩, -⟩ ⟨⟨⟩, -⟩
      rfl
  have inTime : inTimeOrder (·.timestamp) rows = rows.reverse := by
    rw [TimeOrder.inTimeOrder_rearranged _
      (rearranged_of_nodup (List.reverse_perm rows).symm (by decide))]
    exact TimeOrder.inTimeOrder_of_pairwise _ (by decide)
  have entries : Entries rows.reverse [⟨5, 2, 2, 2, 1⟩, ⟨7, 1, 1, 1, 1⟩, ⟨9, 2, 2, 2, 1⟩] := by
    refine .traded ⟨rfl, by decide⟩ ⟨rfl, by decide⟩ (.missing ?_
      (.traded ⟨rfl, by decide⟩ ⟨rfl, by decide⟩ (.missing ?_
        (.traded ⟨rfl, by decide⟩ ⟨rfl, by decide⟩ .nil))))
    · nofun
    · rintro _ _ ⟨-, ⟨⟩, number⟩
      contradiction
  have computed : dollarBarsOfRows rows "3" = .ok [bar] := by
    rw [dollarBarsOfRows_eq read, inTime, entries_iff.mp entries]
    rfl
  obtain ⟨ordered, es, runs, rest, bars, order, counted, made, greedy⟩ :=
    (dollarBars_partition read).1 rows finite
  obtain rfl := (TimeOrder.eq_inTimeOrder _ order).trans inTime
  obtain rfl := (entries_iff.mp entries).symm.trans (entries_iff.mp counted)
  cases computed.symm.trans made
  obtain ⟨run, more, closes, alone, rfl⟩ := List.forall₂_cons_right_iff.mp greedy.closes
  cases alone
  have parts := greedy.parts
  have ended : run.getLast?.map (·.timestamp) = some 7 := by
    simpa using congrArg (Option.map Prod.fst) closes.last
  -- the bar has the timestamp of the second entry, with which its run ends
  obtain _ | ⟨a, _ | ⟨b, _ | ⟨c, others⟩⟩⟩ := run
  · contradiction
  · cases parts
    simp at ended
  · cases parts
    exact ⟨read, finite, computed, greedy⟩
  · simp only [List.flatten_cons, List.flatten_nil, List.append_nil, List.cons_append,
      List.cons.injEq, List.nil_eq_append_iff] at parts
    obtain ⟨rfl, rfl, rfl, rfl, rfl⟩ := parts
    simp at ended

end TradeBars.Ohlcv
