import TradeBars.Proofs.Ohlcv.DollarBars

/-! Dollar bars of two sizes over the same entries. Without rounding and without negative values the
smaller size is ahead at each bar, although the two have thrown away different amounts by then: what
the larger one has gathered since its last bar, the smaller one has gathered too, or has closed a bar
with it. -/
namespace TradeBars.Ohlcv

section Closing

variable {α : Type}

/-- The number of entries up to the end of a run, where runs are counted from zero. -/
def closing (runs : List (List (Entry α))) (k : Nat) : Nat := (runs.take (k + 1)).flatten.length

@[simp] theorem closing_zero (run : List (Entry α)) (runs : List (List (Entry α))) :
    closing (run :: runs) 0 = run.length := by
  simp [closing]

@[simp] theorem closing_succ (run : List (Entry α)) (runs : List (List (Entry α))) (k : Nat) :
    closing (run :: runs) (k + 1) = run.length + closing runs k := by
  simp [closing]

end Closing

section Cuts

variable {α : Type} [Scalar α] {threshold : α} {es rest : List (Entry α)}
  {runs : List (List (Entry α))} {bars : List (Ohlcv α)}

theorem Closes.ne_nil {run : List (Entry α)} {bar : Ohlcv α} (closes : Closes threshold run bar) :
    run ≠ [] := by
  rintro rfl
  have last := closes.last
  contradiction

theorem Greedy.length_eq (greedy : Greedy threshold es runs rest bars) :
    runs.length = bars.length := greedy.closes.length_eq

/-- The entries after the first run are cut like all entries. -/
theorem Greedy.uncons {run : List (Entry α)} (greedy : Greedy threshold es (run :: runs) rest bars) :
    ∃ bar bars' es', bars = bar :: bars' ∧ es = run ++ es' ∧ Closes threshold run bar ∧
      Greedy threshold es' runs rest bars' := by
  obtain ⟨parts, closes, below⟩ := greedy
  obtain ⟨bar, bars', first, others, rfl⟩ := List.forall₂_cons_left_iff.mp closes
  exact ⟨bar, bars', runs.flatten ++ rest, rfl, by simp [parts], first, rfl, others, below⟩

end Cuts

section Exact

variable {K : Type} [Field K] [LinearOrder K] {small large : Exact K}
  {es rest rest' : List (Entry (Exact K))} {runs runs' : List (List (Entry (Exact K)))}
  {bars bars' : List (Ohlcv (Exact K))}

theorem total_append (front back : List (Entry (Exact K))) :
    total (front ++ back) = total front + total back := by
  rw [total, List.map_append, Scalar.sum_append]
  rfl

/-- Entries from the first one on that come to the threshold reach to the end of a run. -/
theorem Greedy.first_run {front back : List (Entry (Exact K))}
    (greedy : Greedy small (front ++ back) runs rest bars) (nonempty : front ≠ [])
    (reached : small ≤ total front) : ∃ run others, runs = run :: others ∧ run <+: front := by
  have outside {run : List (Entry (Exact K))} (below : Below small run) : ¬front <+: run := by
    intro inside
    have less := below front nonempty inside
    simp only [Scalar.lt, decide_eq_true_eq] at less
    exact less.not_ge reached
  cases runs with
  | nil =>
    have parts : front ++ back = rest := greedy.parts
    exact absurd (parts ▸ List.prefix_append front back) (outside greedy.below)
  | cons run others =>
    obtain ⟨bar, bars', es', rfl, parts, closes, -⟩ := greedy.uncons
    refine ⟨run, others, rfl, ?_⟩
    have inside : front <+: run ++ es' := parts ▸ List.prefix_append front back
    rcases List.prefix_or_prefix_of_prefix inside (List.prefix_append run es') with shorter | longer
    · -- the run closed with its last entry, so that it has no such part but itself
      obtain ⟨before, e, rfl⟩ := List.eq_nil_or_concat' run |>.resolve_left closes.ne_nil
      have below := closes.below
      rw [List.dropLast_concat] at below
      rcases List.prefix_concat_iff.mp shorter with same | shorter
      · rw [same]
      · exact absurd shorter (outside below)
    · exact longer

variable [IsStrictOrderedRing K]

theorem total_nonneg {es : List (Entry (Exact K))} (nonneg : ∀ e ∈ es, 0 ≤ e.value) :
    0 ≤ total es := by
  induction es with
  | nil => exact le_refl (0 : Exact K)
  | cons e es ih =>
    obtain ⟨first, others⟩ := List.forall_mem_cons.mp nonneg
    have one : total [e] = e.value := zero_add e.value
    calc (0 : Exact K)
      _ ≤ e.value + total es := add_nonneg first (ih others)
      _ = total (e :: es) := by rw [← one, ← total_append, List.singleton_append]

/-- If one run begins before another one, if only by a gap, it ends before it as well; and what
then remains of the other one is the next gap. -/
theorem Greedy.closing_le {gap : List (Entry (Exact K))}
    (ahead : Greedy small (gap ++ es) runs rest bars) (le : small ≤ large)
    (behind : Greedy large es runs' rest' bars')
    (nonneg : ∀ e ∈ gap ++ es, 0 ≤ e.value) {k : Nat} (within : k < runs'.length) :
    k < runs.length ∧ closing runs k ≤ gap.length + closing runs' k := by
  induction runs' generalizing gap es runs bars bars' k with
  | nil => contradiction
  | cons run' runs' ih =>
    obtain ⟨bar', bars', es, rfl, rfl, closes, behind⟩ := behind.uncons
    rw [← List.append_assoc] at ahead nonneg
    obtain ⟨early, later⟩ := List.forall_mem_append.mp nonneg
    have reached : small ≤ total (gap ++ run') := by
      have enough := closes.reached
      simp only [Scalar.le, decide_eq_true_eq] at enough
      have gained : 0 ≤ total gap := total_nonneg (List.forall_mem_append.mp early).1
      rw [total_append]
      exact le.trans (enough.trans (le_add_of_nonneg_left gained))
    have nonempty : gap ++ run' ≠ [] := List.append_ne_nil_of_right_ne_nil _ closes.ne_nil
    obtain ⟨run, others, rfl, gap', split⟩ := ahead.first_run nonempty reached
    have lengths : run.length + gap'.length = gap.length + run'.length := by
      rw [← List.length_append, ← List.length_append, split]
    cases k with
    | zero => simp; omega
    | succ k =>
      obtain ⟨bar, bars, es', rfl, parts, -, ahead⟩ := ahead.uncons
      rw [← split, List.append_assoc] at parts nonneg
      obtain rfl := List.append_cancel_left parts
      have next := ih ahead behind (List.forall_mem_append.mp nonneg).2 (Nat.lt_of_succ_lt_succ within)
      simp only [List.length_cons, closing_succ]
      omega

/-- No bar is worth less than the size, and what is left over is not worth less than nothing. -/
theorem Greedy.length_mul_le (greedy : Greedy small es runs rest bars)
    (nonneg : ∀ e ∈ es, 0 ≤ e.value) : bars.length * small ≤ total es := by
  induction runs generalizing es bars with
  | nil =>
    have noBars : bars.length = 0 := greedy.length_eq.symm
    simpa [noBars] using total_nonneg nonneg
  | cons run runs ih =>
    obtain ⟨bar, bars, es, rfl, rfl, closes, greedy⟩ := greedy.uncons
    have reached := closes.reached
    simp only [Scalar.le, decide_eq_true_eq] at reached
    have others := ih greedy (List.forall_mem_append.mp nonneg).2
    rw [total_append, List.length_cons, Nat.cast_succ, add_one_mul, add_comm]
    exact add_le_add reached others

/-- The bars of a smaller and of a larger size over the same entries. Where there is a bar of the
larger size, there is one of the smaller size with the same number, and it closes at the same entry or
before. -/
structure Ahead (small large : Exact K) (es : List (Entry (Exact K)))
    (bars bars' : List (Ohlcv (Exact K))) : Prop where
  closings : ∃ runs rest runs' rest',
    Greedy small es runs rest bars ∧ Greedy large es runs' rest' bars' ∧
      ∀ k < bars'.length, k < bars.length ∧ closing runs k ≤ closing runs' k
  length_le : bars'.length ≤ bars.length
  worth : bars.length * small ≤ total es
  worth' : bars'.length * large ≤ total es

theorem Run.bars_ahead (le : small ≤ large) (nonneg : ∀ e ∈ es, 0 ≤ e.value) :
    Ahead small large es (Run.bars small .empty es) (Run.bars large .empty es) := by
  have cut (size : Exact K) :
      ∃ runs rest, Greedy size ([] ++ es) runs rest (Run.bars size .empty es) :=
    Run.bars_greedy rfl fun _ _ => rfl
  obtain ⟨runs, rest, ahead⟩ := cut small
  obtain ⟨runs', rest', behind⟩ := cut large
  have closings : ∀ k < (Run.bars large .empty es).length,
      k < (Run.bars small .empty es).length ∧ closing runs k ≤ closing runs' k := by
    intro k within
    rw [← behind.length_eq] at within
    rw [← ahead.length_eq]
    simpa using ahead.closing_le le behind nonneg within
  refine ⟨⟨runs, rest, runs', rest', ahead, behind, closings⟩, ?_, ahead.length_mul_le nonneg,
    behind.length_mul_le nonneg⟩
  exact le_of_forall_lt fun k within => (closings k within).1

theorem value_le {d d' : DollarSize} (le : d.units ≤ d'.units) :
    (d.value : Exact K) ≤ d'.value := by
  have units : (d.units.toNat : Int) ≤ d'.units.toNat := Int.ofNat_le.mpr le
  exact Int.cast_mono units

end Exact

/-- With a larger dollar size no bar closes earlier, by its number, than with a smaller one, so that
there are no more of them; and the bars are worth no more than what was traded. Rows without a price
or a quantity are no entries, and may stand anywhere. -/
theorem dollarBars_ahead {small large : String} {d d' : DollarSize}
    (read : DollarSize.read small = .ok d) (read' : DollarSize.read large = .ok d')
    (le : d.units ≤ d'.units) (K : Type) [Field K] [LinearOrder K] [IsStrictOrderedRing K] :
    (∀ rows : List (TradeRow (Exact K)),
      (∀ r ∈ rows, ∀ e, Entry.ofRow? r = some e → 0 ≤ e.value) →
      ∃ ordered bars bars', StableOrder (fun a b => a.timestamp ≤ b.timestamp) ordered rows ∧
        dollarBarsOfRows rows small = .ok bars ∧ dollarBarsOfRows rows large = .ok bars' ∧
        Ahead d.value d'.value (ordered.filterMap Entry.ofRow?) bars bars') ∧
    ∀ olds : List (Ohlcv (Exact K)), (∀ old ∈ olds, 0 ≤ (Entry.ofBar old).value) →
      ∃ ordered bars bars', StableOrder (fun a b => a.timestamp ≤ b.timestamp) ordered olds ∧
        dollarBarsOfBars olds small = .ok bars ∧ dollarBarsOfBars olds large = .ok bars' ∧
        Ahead d.value d'.value (ordered.map Entry.ofBar) bars bars' := by
  constructor
  · intro rows nonneg
    exact ⟨_, _, _, TimeOrder.stableOrder_inTimeOrder _ rows, dollarBarsOfRows_eq read rows,
      dollarBarsOfRows_eq read' rows, Run.bars_ahead (value_le le) (forall_mem_ofRows nonneg)⟩
  · intro olds nonneg
    exact ⟨_, _, _, TimeOrder.stableOrder_inTimeOrder _ olds, dollarBarsOfBars_eq read olds,
      dollarBarsOfBars_eq read' olds, Run.bars_ahead (value_le le) (forall_mem_ofBars nonneg)⟩

/-- Of values 2, 2 and 4 the size 3 throws away 1 and then 1, the size 4 nothing. -/
theorem dollarBars_ahead_three_four : DollarSize.read "3" = .ok ⟨3⟩ ∧ DollarSize.read "4" = .ok ⟨4⟩ ∧
    (3 : UInt64) ≤ 4 ∧
    let rows : List (TradeRow (Exact ℚ)) :=
      [⟨7, some 4, some 1⟩, ⟨5, some 1, some 2⟩, ⟨6, some 2, some 1⟩]
    (∀ r ∈ rows, ∀ e, Entry.ofRow? r = some e → 0 ≤ e.value) ∧
    ∃ ordered bars bars', StableOrder (fun a b => a.timestamp ≤ b.timestamp) ordered rows ∧
      dollarBarsOfRows rows "3" = .ok bars ∧ dollarBarsOfRows rows "4" = .ok bars' ∧
      Ahead (DollarSize.value ⟨3⟩) (DollarSize.value ⟨4⟩) (ordered.filterMap Entry.ofRow?)
        bars bars' := by
  have read : DollarSize.read "3" = .ok ⟨3⟩ := by decide
  have read' : DollarSize.read "4" = .ok ⟨4⟩ := by decide
  have nonneg : ∀ r ∈ [(⟨7, some 4, some 1⟩ : TradeRow (Exact ℚ)), ⟨5, some 1, some 2⟩,
      ⟨6, some 2, some 1⟩], ∀ e, Entry.ofRow? r = some e → 0 ≤ e.value := by
    simp only [List.forall_mem_cons]
    refine ⟨?_, ?_, ?_, nofun⟩
    all_goals
      rintro _ ⟨⟩
      norm_num
  exact ⟨read, read', by decide, nonneg, (dollarBars_ahead read read' (by decide) ℚ).1 _ nonneg⟩

end TradeBars.Ohlcv
