import TradeBars.Proofs.Ohlcv.DollarBars
import TradeBars.Proofs.Scalar.Signs

/-! Where the runs of dollar bars open and end if values are zero or missing. A run takes its
open from the last of its entries that still finds the values at zero, which need not be the
first one; it ends with an entry whose value is not a number, as it does when the values come to
the dollar size. Rows with a missing value are left out, and it makes no difference if that is
done before. -/
namespace TradeBars.Ohlcv

variable {α : Type} [Scalar α]

section Opening

/-- The entry of a run at which its values so far last added up to zero; the end of the run is
not looked at. -/
structure OpensAt (run front : List (Entry α)) (e : Entry α) (back : List (Entry α)) : Prop where
  parts : run = front ++ e :: back
  zero : Scalar.eq (total front) 0 = true
  nonzero : ∀ between after, back = between ++ after → after ≠ [] →
    Scalar.eq (total (front ++ e :: between)) 0 = false

/-- The bar of a run with the open of the entry at which the run opens. -/
structure Opens (threshold : α) (run : List (Entry α)) (bar : Ohlcv α) : Prop where
  ends : Ends threshold run bar
  openPrice : ∃ front e back, OpensAt run front e back ∧ bar.openPrice = e.openPrice

theorem opensAt_concat {es : List (Entry α)} (zero : Scalar.eq (total es) 0 = true)
    (e : Entry α) : OpensAt (es ++ [e]) es e [] where
  parts := rfl
  zero := zero
  nonzero := by
    intro between after split nonempty
    exact absurd (List.append_eq_nil_iff.mp split.symm).2 nonempty

theorem OpensAt.concat {es front back : List (Entry α)} {o : Entry α}
    (opens : OpensAt es front o back) (nonzero : Scalar.eq (total es) 0 = false) (e : Entry α) :
    OpensAt (es ++ [e]) front o (back ++ [e]) where
  parts := by rw [opens.parts, List.append_assoc, List.cons_append]
  zero := opens.zero
  nonzero := by
    intro between after split nonempty
    rcases List.eq_nil_or_concat' after with rfl | ⟨after, x, rfl⟩
    · contradiction
    · rw [← List.append_assoc] at split
      obtain ⟨rfl, -⟩ := List.append_inj' split rfl
      by_cases last : after = []
      · rw [last, List.append_nil] at opens
        rwa [← opens.parts]
      · exact opens.nonzero between after rfl last

/-- What a run with some entries has for its open. -/
structure Run.Opening (r : Run α) (threshold : α) (es : List (Entry α)) : Prop where
  gathers : r.Gathers threshold es
  openPrice : es ≠ [] → ∃ front e back, OpensAt es front e back ∧ r.openPrice = e.openPrice

section Push

variable {r : Run α} {threshold : α} {es : List (Entry α)} {e : Entry α}

theorem Run.openPrice_of_push {bar? : Option (Ohlcv α)} {after : Run α}
    (pushed : r.push threshold e = (bar?, after)) :
    (bar?.map (·.openPrice)).getD after.openPrice =
      if Scalar.eq r.value 0 then e.openPrice else r.openPrice := by
  unfold Run.push at pushed
  dsimp only at pushed
  split at pushed <;> cases pushed <;> rfl

variable (zero : Scalar.eq (0 : α) 0 = true) (opening : r.Opening threshold es)
include zero opening

theorem Run.Opening.concat (e : Entry α) : ∃ front o back, OpensAt (es ++ [e]) front o back ∧
    (if Scalar.eq r.value 0 then e.openPrice else r.openPrice) = o.openPrice := by
  have value := opening.gathers.value
  by_cases worthless : Scalar.eq r.value 0 = true
  · exact ⟨es, e, [], opensAt_concat (value ▸ worthless) e, if_pos worthless⟩
  · have nonzero : Scalar.eq (total es) 0 = false := Bool.eq_false_iff.mpr (value ▸ worthless)
    have nonempty : es ≠ [] := by
      rintro rfl
      exact worthless (value ▸ zero)
    obtain ⟨front, o, back, opens, same⟩ := opening.openPrice nonempty
    exact ⟨front, o, back ++ [e], opens.concat nonzero e, (if_neg worthless).trans same⟩

theorem Run.Opening.push (e : Entry α) :
    (∃ after, r.push threshold e = (none, after) ∧ after.Opening threshold (es ++ [e])) ∨
      ∃ bar, r.push threshold e = (some bar, .empty) ∧ Opens threshold (es ++ [e]) bar := by
  obtain ⟨front, o, back, opens, price⟩ := opening.concat zero e
  rcases opening.gathers.push e with ⟨after, pushed, gathers⟩ | ⟨bar, pushed, ends⟩
  · have same := (Run.openPrice_of_push pushed).trans price
    exact .inl ⟨after, pushed, gathers, fun _ => ⟨front, o, back, opens, same⟩⟩
  · have same := (Run.openPrice_of_push pushed).trans price
    exact .inr ⟨bar, pushed, ends, front, o, back, opens, same⟩

end Push

theorem Run.bars_open (zero : Scalar.eq (0 : α) 0 = true) (threshold : α) (es : List (Entry α)) :
    ∃ runs rest, Cut (Opens threshold) threshold es runs rest (Run.bars threshold .empty es) := by
  have start : Run.empty.Opening threshold ([] : List (Entry α)) :=
    ⟨gathers_empty, fun nonempty => absurd rfl nonempty⟩
  exact Run.bars_cut (fun r es => r.Opening threshold es) (Opening.push zero)
    (fun opening => opening.gathers.below) start start es

section Amounts

/-- Finite and not negative. -/
def IsAmount (x : α) : Prop := Scalar.isFinite x = true ∧ Scalar.le 0 x = true

/-- The bar has the open of the first entry of its run with a value other than zero, or of the
last entry if there is none. -/
def OpensAtValue (run : List (Entry α)) (bar : Ohlcv α) : Prop :=
  ∃ front e back, run = front ++ e :: back ∧ (∀ x ∈ front, Scalar.eq x.value 0 = true) ∧
    (Scalar.eq e.value 0 = true → back = []) ∧ bar.openPrice = e.openPrice

theorem total_eq_zero_iff {es : List (Entry Float)}
    (nonneg : ∀ e ∈ es, Scalar.le 0 e.value = true) :
    Scalar.eq (total es) 0 = true ↔ ∀ e ∈ es, Scalar.eq e.value 0 = true := by
  have values : ∀ x ∈ es.map (·.value), Scalar.le 0 x = true := List.forall_mem_map.mpr nonneg
  rw [total, (Binary64.sum_nonneg values).2, List.forall_mem_map]

theorem Opens.atValue {threshold : Float} {run : List (Entry Float)} {bar : Ohlcv Float}
    (opens : Opens threshold run bar) (nonneg : ∀ e ∈ run, Scalar.le 0 e.value = true) :
    OpensAtValue run bar := by
  obtain ⟨front, e, back, opensAt, price⟩ := opens.openPrice
  rw [opensAt.parts, List.forall_mem_append, List.forall_mem_cons] at nonneg
  obtain ⟨before, here, -⟩ := nonneg
  have worthless := (total_eq_zero_iff before).mp opensAt.zero
  refine ⟨front, e, back, opensAt.parts, worthless, ?_, price⟩
  intro empty
  by_contra more
  have zero : Scalar.eq (total (front ++ [e])) 0 = true := by
    rw [total_eq_zero_iff, List.forall_mem_append, List.forall_mem_singleton]
    · exact ⟨worthless, empty⟩
    · rw [List.forall_mem_append, List.forall_mem_singleton]
      exact ⟨before, here⟩
  rw [opensAt.nonzero [] back rfl more] at zero
  contradiction

theorem Run.bars_atValue (threshold : Float) (es : List (Entry Float)) :
    ∃ runs rest, Cut (Opens threshold) threshold es runs rest (Run.bars threshold .empty es) ∧
      ((∀ e ∈ es, Scalar.le 0 e.value = true) →
        List.Forall₂ OpensAtValue runs (Run.bars threshold .empty es)) := by
  obtain ⟨runs, rest, cut⟩ := Run.bars_open rfl threshold es
  refine ⟨runs, rest, cut, ?_⟩
  intro nonneg
  exact (cut.ended_and nonneg).imp fun _ _ ⟨nonneg, opens⟩ => opens.atValue nonneg

end Amounts

/-- The bars of trades and of bars over time open where the value of their run was zero for the
last time before its end. If no price and no volume is negative, that is the first entry of the
run that has a value. -/
theorem dollarBars_open {size : String} {d : DollarSize} (read : DollarSize.read size = .ok d) :
    (∀ rows : List (TradeRow Float), ∃ ordered runs rest bars,
      StableOrder (fun a b => a.timestamp ≤ b.timestamp) ordered rows ∧
      dollarBarsOfRows rows size = .ok bars ∧
      Cut (Opens d.value) d.value (ordered.filterMap Entry.ofRow?) runs rest bars ∧
      ((∀ r ∈ rows, ∀ price qty, r.values? = some (price, qty) → IsAmount price ∧ IsAmount qty) →
        List.Forall₂ OpensAtValue runs bars)) ∧
    ∀ olds : List (Ohlcv Float), ∃ ordered runs rest bars,
      StableOrder (fun a b => a.timestamp ≤ b.timestamp) ordered olds ∧
      dollarBarsOfBars olds size = .ok bars ∧
      Cut (Opens d.value) d.value (ordered.map Entry.ofBar) runs rest bars ∧
      ((∀ old ∈ olds, IsAmount old.close ∧ IsAmount old.volume) →
        List.Forall₂ OpensAtValue runs bars) := by
  constructor
  · intro rows
    obtain ⟨runs, rest, cut, opens⟩ := Run.bars_atValue d.value
      ((inTimeOrder (·.timestamp) rows).filterMap Entry.ofRow?)
    refine ⟨_, runs, rest, _, TimeOrder.stableOrder_inTimeOrder _ rows,
      dollarBarsOfRows_eq read rows, cut, fun amounts => opens ?_⟩
    intro e member
    obtain ⟨r, inside, entry⟩ := List.mem_filterMap.mp member
    obtain ⟨⟨price, qty⟩, values, rfl⟩ := Option.map_eq_some_iff.mp entry
    obtain ⟨hp, hq⟩ := amounts r ((TimeOrder.mem_inTimeOrder _).mp inside) price qty values
    exact Binary64.mul_nonneg hp.2 hq.2 hp.1 hq.1
  · intro olds
    obtain ⟨runs, rest, cut, opens⟩ := Run.bars_atValue d.value
      ((inTimeOrder (·.timestamp) olds).map Entry.ofBar)
    refine ⟨_, runs, rest, _, TimeOrder.stableOrder_inTimeOrder _ olds,
      dollarBarsOfBars_eq read olds, cut, fun amounts => opens ?_⟩
    intro e member
    obtain ⟨old, inside, rfl⟩ := List.mem_map.mp member
    obtain ⟨hc, hv⟩ := amounts old ((TimeOrder.mem_inTimeOrder _).mp inside)
    exact Binary64.mul_nonneg hc.2 hv.2 hc.1 hv.1

theorem dollarBars_open_three : DollarSize.read "3" = .ok ⟨3⟩ ∧
    let olds : List (Ohlcv Float) := [⟨7, 2, 2, 2, 2, 2⟩, ⟨5, 1, 1, 1, 1, 0⟩]
    (∀ old ∈ olds, IsAmount old.close ∧ IsAmount old.volume) ∧
    ∃ ordered runs rest bars, StableOrder (fun a b => a.timestamp ≤ b.timestamp) ordered olds ∧
      dollarBarsOfBars olds "3" = .ok bars ∧
      Cut (Opens (DollarSize.value ⟨3⟩)) (DollarSize.value ⟨3⟩) (ordered.map Entry.ofBar)
        runs rest bars ∧
      List.Forall₂ OpensAtValue runs bars := by
  have read : DollarSize.read "3" = .ok ⟨3⟩ := by decide
  have amounts : ∀ old ∈ [(⟨7, 2, 2, 2, 2, 2⟩ : Ohlcv Float), ⟨5, 1, 1, 1, 1, 0⟩],
      IsAmount old.close ∧ IsAmount old.volume := by
    rw [List.forall_mem_cons, List.forall_mem_singleton]
    exact ⟨⟨⟨rfl, rfl⟩, rfl, rfl⟩, ⟨rfl, rfl⟩, rfl, rfl⟩
  obtain ⟨ordered, runs, rest, bars, order, made, cut, opens⟩ := (dollarBars_open read).2 _
  exact ⟨read, amounts, ordered, runs, rest, bars, order, made, cut, opens amounts⟩

/-- A first bar without volume, or a first trade without quantity, does not give the open. -/
theorem dollarBars_open_late :
    let olds : List (Ohlcv Float) := [⟨0, 1, 1, 1, 1, 0⟩, ⟨60, 2, 2, 2, 2, 1⟩]
    let rows : List (TradeRow Float) := [⟨0, some 1, some 0⟩, ⟨60, some 2, some 1⟩]
    dollarBarsOfBars olds "2" = .ok [⟨60, 2, 2, 2, 2, 1⟩] ∧
      dollarBarsOfRows rows "2" = .ok [⟨60, 2, 2, 2, 2, 1⟩] ∧ (2 : Float) ≠ 1 := by
  intro olds rows
  have read : DollarSize.read "2" = .ok ⟨2⟩ := by decide
  have inOrder : inTimeOrder (·.timestamp) olds = olds :=
    TimeOrder.inTimeOrder_of_pairwise _ (by decide)
  have rowsInOrder : inTimeOrder (·.timestamp) rows = rows :=
    TimeOrder.inTimeOrder_of_pairwise _ (by decide)
  refine ⟨?_, ?_, by decide⟩
  · rw [dollarBarsOfBars_eq read, inOrder]
    rfl
  · rw [dollarBarsOfRows_eq read, rowsInOrder]
    rfl

end Opening

section Missing

variable {threshold : Float}

/-- Sums that stay below the threshold have no value that is not a number. -/
theorem Below.numbers {es : List (Entry Float)} (below : Below threshold es) :
    ∀ e ∈ es, Scalar.isNaN e.value = false := by
  intro e member
  obtain ⟨front, back, rfl⟩ := List.append_of_mem member
  rw [Bool.eq_false_iff]
  intro nan
  have less := below (front ++ [e]) (List.concat_ne_nil _ _) (by simp)
  rw [total, List.map_append, List.map_singleton, Scalar.sum_concat,
    Binary64.lt_of_isNaN (Binary64.isNaN_add_right _ nan)] at less
  contradiction

/-- A bar that ends where its run comes to the threshold or stops being a number. -/
structure Stops (threshold : Float) (run : List (Entry Float)) (bar : Ohlcv Float) : Prop where
  ends : Ends threshold run bar
  reached : Scalar.le threshold (total run) = true ∨ Scalar.isNaN (total run) = true
  finite : (∀ e ∈ run, e.value.isFinite = true) → Scalar.le threshold (total run) = true
  numbers : ∀ e ∈ run.dropLast, Scalar.isNaN e.value = false

theorem Ends.stops (size : Scalar.isNaN threshold = false) {run : List (Entry Float)}
    {bar : Ohlcv Float} (ends : Ends threshold run bar) : Stops threshold run bar where
  ends := ends
  reached := by
    cases number : Scalar.isNaN (total run) with
    | true => exact .inr rfl
    | false => exact .inl (ends.reached size number)
  finite := fun finite => (ends.closes size finite).reached
  numbers := ends.below.numbers

/-- Whatever the values of the bars over time, a dollar bar ends with the first of them at which
the values come to the dollar size or are no number any more; so a missing value ends its run. -/
theorem dollarBarsOfBars_stop {size : String} {d : DollarSize}
    (read : DollarSize.read size = .ok d) (olds : List (Ohlcv Float)) :
    ∃ ordered runs rest bars, StableOrder (fun a b => a.timestamp ≤ b.timestamp) ordered olds ∧
      dollarBarsOfBars olds size = .ok bars ∧
      Cut (Stops d.value) d.value (ordered.map Entry.ofBar) runs rest bars ∧
      ∀ e ∈ rest, Scalar.isNaN e.value = false := by
  have number : Scalar.isNaN (d.value : Float) = false := LawfulScalar.isNaN_ofInt _
  obtain ⟨runs, rest, cut⟩ := Run.bars_ends d.value
    ((inTimeOrder (·.timestamp) olds).map Entry.ofBar)
  exact ⟨_, runs, rest, _, TimeOrder.stableOrder_inTimeOrder _ olds, dollarBarsOfBars_eq read olds,
    cut.imp fun _ _ ends => ends.stops number, cut.below.numbers⟩

theorem dollarBarsOfBars_stop_thousand : DollarSize.read "1k" = .ok ⟨1000⟩ ∧
    let olds : List (Ohlcv Float) := [⟨60, 1, 1, 1, 0 / 0, 1⟩, ⟨0, 1, 1, 1, 1, 1⟩]
    ∃ ordered runs rest bars, StableOrder (fun a b => a.timestamp ≤ b.timestamp) ordered olds ∧
      dollarBarsOfBars olds "1k" = .ok bars ∧
      Cut (Stops (DollarSize.value ⟨1000⟩)) (DollarSize.value ⟨1000⟩) (ordered.map Entry.ofBar)
        runs rest bars ∧
      ∀ e ∈ rest, Scalar.isNaN e.value = false := by
  have read : DollarSize.read "1k" = .ok ⟨1000⟩ := by decide
  exact ⟨read, dollarBarsOfBars_stop read _⟩

/-- A bar with a missing close ends its run although next to nothing has been traded. -/
theorem dollarBar_of_missing_close :
    let olds : List (Ohlcv Float) := [⟨0, 1, 1, 1, 1, 1⟩, ⟨60, 1, 1, 1, 0 / 0, 1⟩]
    dollarBarsOfBars olds "1k" = .ok [⟨60, 1, 1, 1, 0 / 0, 2⟩] ∧
      Scalar.le (DollarSize.value ⟨1000⟩) (total (olds.map Entry.ofBar)) = false := by
  intro olds
  have read : DollarSize.read "1k" = .ok ⟨1000⟩ := by decide
  have inOrder : inTimeOrder (·.timestamp) olds = olds :=
    TimeOrder.inTimeOrder_of_pairwise _ (by decide)
  constructor
  · rw [dollarBarsOfBars_eq read, inOrder]
    rfl
  · decide +kernel

end Missing

section Rows

/-- A row as a bar of its own. -/
def ofRow? (r : TradeRow α) : Option (Ohlcv α) :=
  r.values?.map fun (price, qty) => ⟨r.timestamp, price, price, price, price, qty⟩

theorem map_ofBar_ofRow? (r : TradeRow α) : (ofRow? r).map Entry.ofBar = Entry.ofRow? r := by
  rw [ofRow?, Entry.ofRow?, Option.map_map]
  rfl

theorem timestamp_ofRow? {r : TradeRow α} {bar : Ohlcv α} (made : ofRow? r = some bar) :
    bar.timestamp = r.timestamp := by
  obtain ⟨values, -, rfl⟩ := Option.map_eq_some_iff.mp made
  rfl

end Rows

end TradeBars.Ohlcv
