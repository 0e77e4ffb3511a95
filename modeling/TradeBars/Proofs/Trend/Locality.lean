import TradeBars.Proofs.Newest
import TradeBars.Trend.Features

/-! Trend features look back, and not far. One more close adds one value to the end of each
series, which is made of the last closes alone: as many as the longest average takes for each of
the values that the angle is fitted to. -/
namespace TradeBars.Trend
open Newest

section Rolling

variable {β γ : Type} {n : Nat} (undefined : γ) (f : List β → γ)

/-- What a function makes of the last `n` elements at every index, from the first one on that has
as many. -/
def rolling (n : Nat) (xs : List β) : List γ :=
  List.replicate (min xs.length (n - 1)) undefined ++ (windows n xs).map f

/-- What it makes of the last elements of all. -/
def lastValue (n : Nat) (xs : List β) : γ :=
  if xs.length < n then undefined else f (xs.rtake n)

theorem windows_of_lt {xs : List β} (short : xs.length < n) : windows n xs = [] := by
  rw [windows, Nat.sub_eq_zero_of_le short, List.range_zero, List.map_nil]

theorem windows_concat {xs : List β} (enough : n ≤ xs.length + 1) (x : β) :
    windows n (xs ++ [x]) = windows n xs ++ [(xs ++ [x]).rtake n] := by
  have length : (xs ++ [x]).length = xs.length + 1 := List.length_append
  have count : (xs ++ [x]).length + 1 - n = xs.length + 1 - n + 1 := by omega
  rw [windows, windows, count, List.range_succ, List.map_append, List.map_singleton]
  congr 1
  · apply List.map_congr_left
    intro i within
    rw [List.mem_range] at within
    rw [List.drop_append_of_le_length (by omega), List.take_append_of_le_length]
    rw [List.length_drop]
    omega
  · rw [List.rtake, length, List.take_of_length_le]
    rw [List.length_drop]
    omega

/-- One more element gives one more value. -/
theorem rolling_concat (positive : 0 < n) (xs : List β) (x : β) :
    rolling undefined f n (xs ++ [x]) =
      rolling undefined f n xs ++ [lastValue undefined f n (xs ++ [x])] := by
  have length : (xs ++ [x]).length = xs.length + 1 := List.length_append
  unfold rolling lastValue
  by_cases short : (xs ++ [x]).length < n
  · rw [if_pos short, windows_of_lt short, windows_of_lt (by omega), List.map_nil,
      List.append_nil, List.append_nil, ← List.replicate_succ']
    congr 1
    omega
  · rw [if_neg short, windows_concat (by omega), List.map_append, List.map_singleton,
      ← List.append_assoc]
    congr 3
    omega

theorem length_rolling (positive : 0 < n) (xs : List β) :
    (rolling undefined f n xs).length = xs.length := by
  induction xs using List.reverseRecOn with
  | nil =>
    have noWindow : windows n ([] : List β) = [] := windows_of_lt positive
    simp [rolling, noWindow]
  | append_singleton xs x ih =>
    rw [rolling_concat undefined f positive, List.length_append, List.length_append, ih]
    rfl

/-- Values that are there do not change with what comes after. -/
theorem prefix_rolling (positive : 0 < n) (xs ys : List β) :
    rolling undefined f n xs <+: rolling undefined f n (xs ++ ys) := by
  induction ys using List.reverseRecOn with
  | nil => exact (List.append_nil xs).symm ▸ List.prefix_rfl
  | append_singleton ys y ih =>
    rw [← List.append_assoc, rolling_concat undefined f positive]
    exact ih.trans (List.prefix_append _ _)

theorem getLast?_rolling (positive : 0 < n) {xs : List β} (nonempty : xs ≠ []) :
    (rolling undefined f n xs).getLast? = some (lastValue undefined f n xs) := by
  obtain ⟨front, x, rfl⟩ := (List.eq_nil_or_concat' xs).resolve_left nonempty
  rw [rolling_concat undefined f positive, List.getLast?_concat]

theorem lastValue_append {back : List β} (enough : n ≤ back.length) (front : List β) :
    lastValue undefined f n (front ++ back) = lastValue undefined f n back := by
  have fits : n - back.length = 0 := Nat.sub_eq_zero_of_le enough
  unfold lastValue
  rw [if_neg, if_neg, rtake_append, fits, List.rtake_zero, List.nil_append]
  · exact Nat.not_lt_of_le enough
  · rw [List.length_append]
    omega

/-- The last `k` values reach back over `n - 1` elements more. -/
theorem rtake_rolling_append (positive : 0 < n) {k : Nat} {back : List β}
    (enough : k + n ≤ back.length + 1) (front : List β) :
    (rolling undefined f n (front ++ back)).rtake k = (rolling undefined f n back).rtake k := by
  induction k generalizing back with
  | zero => rw [List.rtake_zero, List.rtake_zero]
  | succ k ih =>
    have nonempty : back ≠ [] := by
      rintro rfl
      rw [List.length_nil] at enough
      omega
    obtain ⟨back, x, rfl⟩ := (List.eq_nil_or_concat' back).resolve_left nonempty
    have reaches : n ≤ (back ++ [x]).length := by omega
    have last := lastValue_append undefined f reaches front
    rw [List.length_append, List.length_singleton] at enough
    rw [← List.append_assoc] at last ⊢
    rw [rolling_concat undefined f positive, rolling_concat undefined f positive,
      List.rtake_concat_succ, List.rtake_concat_succ, ih (by omega), last]

theorem take_rolling (positive : 0 < n) (xs ys : List β) :
    (rolling undefined f n (xs ++ ys)).take xs.length = rolling undefined f n xs := by
  have kept := List.prefix_iff_eq_take.mp (prefix_rolling undefined f positive xs ys)
  rw [length_rolling undefined f positive] at kept
  exact kept.symm

theorem take_rolling_rolling {δ : Type} (undefined' : δ) (g : List γ → δ) (positive : 0 < n)
    {m : Nat} (positive' : 0 < m) (xs ys : List β) :
    (rolling undefined' g m (rolling undefined f n (xs ++ ys))).take xs.length =
      rolling undefined' g m (rolling undefined f n xs) := by
  obtain ⟨more, whole⟩ := prefix_rolling undefined f positive xs ys
  rw [← whole, ← length_rolling undefined f positive xs]
  exact take_rolling undefined' g positive' _ _

/-- The last value of a series over a series reaches back over both windows. -/
theorem lastValue_rolling_append {δ : Type} (undefined' : δ) (g : List γ → δ) (positive : 0 < n)
    {m : Nat} {back : List β} (enough : m + n ≤ back.length + 1) (front : List β) :
    lastValue undefined' g m (rolling undefined f n (front ++ back)) =
      lastValue undefined' g m (rolling undefined f n back) := by
  have length : (front ++ back).length = front.length + back.length := List.length_append
  unfold lastValue
  rw [length_rolling undefined f positive, length_rolling undefined f positive, if_neg (by omega),
    if_neg (by omega), rtake_rolling_append undefined f positive enough]

end Rolling

section Series

variable {α : Type}

def Features.firstRows (n : Nat) (f : Features α) : Features α where
  average1 := f.average1.take n
  average2 := f.average2.take n
  average3 := f.average3.take n
  angle1 := f.angle1.take n
  angle2 := f.angle2.take n
  angle3 := f.angle3.take n

variable [Angular α]

theorem movingAverage_eq {n : Nat} (positive : 0 < n) (closes : List α) :
    movingAverage closes n = rolling Angular.nan mean n closes := if_neg positive.ne'

theorem angles_eq (w : Window) (xs : List α) :
    w.angles xs = rolling Angular.nan fitAngle w.size xs := rfl

/-- The six series over the closes. -/
def series (window : Window) (config : Config.TrendAngle) (closes : List α) : Features α where
  average1 := movingAverage closes config.average1.toNat
  average2 := movingAverage closes config.average2.toNat
  average3 := movingAverage closes config.average3.toNat
  angle1 := window.angles (movingAverage closes config.average1.toNat)
  angle2 := window.angles (movingAverage closes config.average2.toNat)
  angle3 := window.angles (movingAverage closes config.average3.toNat)

theorem features_eq_some_iff {bars : List (Bar α)} {config : Config.TrendAngle} {f : Features α} :
    features bars config = .ok (some f) ↔
      config.fault? = none ∧ config.minBars < bars.length ∧
        ∃ window, Window.new config.angle.toNat = .ok window ∧
          f = series window config (bars.map (·.close)) := by
  unfold features
  cases config.fault? with
  | some fault =>
    constructor
    · nofun
    · nofun
  | none =>
    by_cases short : bars.length ≤ config.minBars
    · simp only [if_pos short]
      constructor
      · nofun
      · rintro ⟨-, enough, -⟩
        exact absurd enough (Nat.not_lt_of_le short)
    · simp only [if_neg short]
      cases Window.new config.angle.toNat with
      | error fault =>
        constructor
        · nofun
        · nofun
      | ok window =>
        constructor
        · rintro ⟨⟩
          exact ⟨trivial, Nat.lt_of_not_le short, window, rfl, rfl⟩
        · rintro ⟨-, -, _, ⟨⟩, rfl⟩
          rfl

/-- As many closes as the newest values are made of: the longest average of all, for each of the
values in the window of the angle. -/
def reach (config : Config.TrendAngle) : Nat :=
  max (max config.average1.toNat config.average2.toNat) config.average3.toNat +
    config.angle.toNat - 1

/-- Lengths that features can be computed with. -/
structure Usable (window : Window) (config : Config.TrendAngle) : Prop where
  average1 : 0 < config.average1.toNat
  average2 : 0 < config.average2.toNat
  average3 : 0 < config.average3.toNat
  size : window.size = config.angle.toNat

theorem fault?_eq_none_iff {config : Config.TrendAngle} : config.fault? = none ↔
    3 ≤ config.angle.toNat ∧ 2 ≤ config.average1.toNat ∧ 2 ≤ config.average2.toNat ∧
      2 ≤ config.average3.toNat := by
  have three : (3 : UInt64).toNat = 3 := rfl
  have two : (2 : UInt64).toNat = 2 := rfl
  unfold Config.TrendAngle.fault?
  simp only [UInt64.lt_iff_toNat_lt, three, two]
  grind

theorem usable_of_valid {config : Config.TrendAngle} (valid : config.fault? = none)
    {window : Window} (made : Window.new config.angle.toNat = .ok window) :
    Usable window config := by
  obtain ⟨-, first, second, third⟩ := fault?_eq_none_iff.mp valid
  refine ⟨by omega, by omega, by omega, ?_⟩
  unfold Window.new at made
  split at made
  · cases made
    rfl
  · contradiction

section Fits

variable {config : Config.TrendAngle}
  (fits : max (max config.average1.toNat config.average2.toNat) config.average3.toNat *
    config.angle.toNat < UInt64.size)
include fits

/-- The product of the lengths is what it should be, if a word holds it. -/
theorem minBars_eq : config.minBars =
    max (max config.average1.toNat config.average2.toNat) config.average3.toNat *
      config.angle.toNat := by
  have largest (m n : UInt64) : (max m n).toNat = max m.toNat n.toNat := by
    change (if m ≤ n then n else m).toNat = _
    rw [Nat.max_def, apply_ite UInt64.toNat]
    simp only [UInt64.le_iff_toNat_le]
  rw [Config.TrendAngle.minBars, UInt64.toNat_mul, largest, largest]
  exact Nat.mod_eq_of_lt fits

/-- With enough bars for features there are as many closes as their newest values are made of. -/
theorem reach_le_minBars (valid : config.fault? = none) : reach config ≤ config.minBars := by
  obtain ⟨wide, long, -, -⟩ := fault?_eq_none_iff.mp valid
  rw [minBars_eq fits]
  exact Nat.add_sub_one_le_mul (by omega) (by omega)

end Fits

section Usable

variable {window : Window} {config : Config.TrendAngle} (usable : Usable window config)
include usable

theorem firstRows_series (xs ys : List α) :
    (series window config (xs ++ ys)).firstRows xs.length = series window config xs := by
  have positive : 0 < window.size := Nat.lt_of_lt_of_le Nat.two_pos window.two_le
  have average {n : Nat} (nonempty : 0 < n) :
      (movingAverage (xs ++ ys) n).take xs.length = movingAverage xs n := by
    rw [movingAverage_eq nonempty, movingAverage_eq nonempty]
    exact take_rolling _ _ nonempty _ _
  have angle {n : Nat} (nonempty : 0 < n) :
      (window.angles (movingAverage (xs ++ ys) n)).take xs.length =
        window.angles (movingAverage xs n) := by
    rw [movingAverage_eq nonempty, movingAverage_eq nonempty, angles_eq, angles_eq]
    exact take_rolling_rolling _ _ _ _ nonempty positive _ _
  unfold series Features.firstRows
  dsimp only
  rw [average usable.average1, average usable.average2, average usable.average3,
    angle usable.average1, angle usable.average2, angle usable.average3]

/-- The values at the end, for an average of `n` closes. -/
theorem latest?_series {closes : List α} (nonempty : closes ≠ []) :
    (series window config closes).latest? =
      let average (n : Nat) := lastValue Angular.nan mean n closes
      let angle (n : Nat) :=
        lastValue Angular.nan fitAngle window.size (rolling Angular.nan mean n closes)
      some ⟨average config.average1.toNat, average config.average2.toNat,
        average config.average3.toNat, angle config.average1.toNat, angle config.average2.toNat,
        angle config.average3.toNat⟩ := by
  have positive : 0 < window.size := Nat.lt_of_lt_of_le Nat.two_pos window.two_le
  have average {n : Nat} (long : 0 < n) : (movingAverage closes n)[closes.length - 1]? =
      some (lastValue Angular.nan mean n closes) := by
    rw [movingAverage_eq long, ← getLast?_rolling _ _ long nonempty, List.getLast?_eq_getElem?,
      length_rolling _ _ long]
  have angle {n : Nat} (long : 0 < n) :
      (window.angles (movingAverage closes n))[closes.length - 1]? =
        some (lastValue Angular.nan fitAngle window.size (rolling Angular.nan mean n closes)) := by
    have length := length_rolling Angular.nan mean long closes
    have nonempty' : rolling Angular.nan mean n closes ≠ [] := by
      rw [← List.length_pos_iff_ne_nil, length]
      exact List.length_pos_of_ne_nil nonempty
    rw [movingAverage_eq long, angles_eq, ← getLast?_rolling _ _ positive nonempty',
      List.getLast?_eq_getElem?, length_rolling _ _ positive, length]
  have size : (movingAverage closes config.average1.toNat).length = closes.length := by
    rw [movingAverage_eq usable.average1, length_rolling _ _ usable.average1]
  unfold Features.latest? Features.size series
  dsimp only
  rw [List.getLast?_eq_getElem?, size, average usable.average1, average usable.average2,
    average usable.average3, angle usable.average1, angle usable.average2, angle usable.average3]
  rfl

/-- Closes before the last ones have no part in the newest values. -/
theorem latest?_series_append {back : List α} (enough : reach config ≤ back.length)
    (front : List α) :
    (series window config (front ++ back)).latest? = (series window config back).latest? := by
  have bounds := usable.size
  have long := window.two_le
  have average {n : Nat} (within : n + window.size ≤ back.length + 1) :
      lastValue (Angular.nan : α) mean n (front ++ back) = lastValue Angular.nan mean n back :=
    lastValue_append _ _ (by omega) _
  have angle {n : Nat} (positive : 0 < n) (within : n + window.size ≤ back.length + 1) :
      lastValue (Angular.nan : α) fitAngle window.size (rolling Angular.nan mean n (front ++ back)) =
        lastValue Angular.nan fitAngle window.size (rolling Angular.nan mean n back) :=
    lastValue_rolling_append _ _ _ _ positive (by omega) _
  unfold reach at enough
  have first : config.average1.toNat + window.size ≤ back.length + 1 := by omega
  have second : config.average2.toNat + window.size ≤ back.length + 1 := by omega
  have third : config.average3.toNat + window.size ≤ back.length + 1 := by omega
  have nonempty : back ≠ [] := by
    rw [← List.length_pos_iff_ne_nil]
    have := usable.average1
    omega
  rw [latest?_series usable nonempty,
    latest?_series usable (List.append_ne_nil_of_right_ne_nil _ nonempty)]
  dsimp only
  rw [average first, average second, average third, angle usable.average1 first,
    angle usable.average2 second, angle usable.average3 third]

theorem latest?_series_rtake {closes : List α} (enough : reach config ≤ closes.length) :
    (series window config closes).latest? =
      (series window config (closes.rtake (reach config))).latest? := by
  obtain ⟨front, whole⟩ := rtake_suffix closes (reach config)
  have length : (closes.rtake (reach config)).length = reach config := by
    rw [length_rtake, Nat.min_eq_left enough]
  have same := latest?_series_append usable length.ge front
  rwa [whole] at same

/-- The last closes decide on the newest values. Where there are fewer of them than could matter, they
are all there is. -/
theorem latest?_series_eq {closes closes' : List α}
    (same : closes.rtake (reach config) = closes'.rtake (reach config)) :
    (series window config closes).latest? = (series window config closes').latest? := by
  have length := congrArg List.length same
  rw [length_rtake, length_rtake] at length
  by_cases enough : reach config ≤ closes.length
  · rw [latest?_series_rtake usable enough, same, ← latest?_series_rtake usable (by omega)]
  · rw [rtake_of_length_le (by omega), rtake_of_length_le (by omega)] at same
    rw [same]

end Usable

/-- Neither later bars nor bars that are gone change a feature. With more bars at the end the
values of the earlier ones stay, and the newest values are the same wherever the last closes
are, as many as the longest average and the window of the angle take together less one. -/
theorem features_causal_local (config : Config.TrendAngle) :
    (∀ (xs ys : List (Bar α)) (f : Features α), features xs config = .ok (some f) →
      ∃ g, features (xs ++ ys) config = .ok (some g) ∧ g.firstRows xs.length = f) ∧
    ∀ (xs ys : List (Bar α)) (f g : Features α), features xs config = .ok (some f) →
      features ys config = .ok (some g) →
      (xs.map (·.close)).rtake (reach config) = (ys.map (·.close)).rtake (reach config) →
      ∃ newest, f.latest? = some newest ∧ g.latest? = some newest := by
  constructor
  · intro xs ys f made
    obtain ⟨valid, enough, window, found, rfl⟩ := features_eq_some_iff.mp made
    have longer : config.minBars < (xs ++ ys).length := by
      rw [List.length_append]
      omega
    have rows := firstRows_series (usable_of_valid valid found) (xs.map (·.close))
      (ys.map (·.close))
    rw [List.length_map, ← List.map_append] at rows
    exact ⟨_, features_eq_some_iff.mpr ⟨valid, longer, window, found, rfl⟩, rows⟩
  · intro xs ys f g made made' same
    obtain ⟨valid, enough, window, found, rfl⟩ := features_eq_some_iff.mp made
    obtain ⟨-, enough', window', found', rfl⟩ := features_eq_some_iff.mp made'
    obtain rfl : window = window' := Except.ok.inj (found.symm.trans found')
    have usable := usable_of_valid valid found
    have filled : 0 < (xs.map (·.close)).length := by
      rw [List.length_map]
      exact Nat.zero_lt_of_lt enough
    have latest := latest?_series usable (List.ne_nil_of_length_pos filled)
    exact ⟨_, latest, (latest?_series_eq usable same).symm.trans latest⟩

/-- The oldest of eight bars is given up and a ninth one comes. -/
theorem features_causal_local_eight :
    let config : Config.TrendAngle := ⟨2, 2, 2, 3⟩
    let bar (i : Nat) : Bar Float := .ofTrade ⟨i, Binary64.ofInt i, 1, .buy, "BTC-USDT"⟩
    let bars := (List.range 8).map bar
    ∃ f g h newest, features bars config = .ok (some f) ∧
      features (bars ++ [bar 8]) config = .ok (some g) ∧ g.firstRows 8 = f ∧
      features (bars.drop 1) config = .ok (some h) ∧
      (bars.map (·.close)).rtake (reach config) = ((bars.drop 1).map (·.close)).rtake (reach config) ∧
      f.latest? = some newest ∧ h.latest? = some newest := by
  intro config bar bars
  have made : features bars config = .ok (some _) :=
    features_eq_some_iff.mpr ⟨by decide, by decide, ⟨3, by decide⟩, rfl, rfl⟩
  have made' : features (bars.drop 1) config = .ok (some _) :=
    features_eq_some_iff.mpr ⟨by decide, by decide, ⟨3, by decide⟩, rfl, rfl⟩
  have same : (bars.map (·.close)).rtake (reach config) =
      ((bars.drop 1).map (·.close)).rtake (reach config) := by
    have four : reach config = 4 := rfl
    simp [four, bars, List.rtake]
  obtain ⟨g, longer, rows⟩ := (features_causal_local config).1 _ [bar 8] _ made
  obtain ⟨newest, left, right⟩ := (features_causal_local config).2 _ _ _ _ made made' same
  exact ⟨_, g, _, newest, made, longer, rows, made', same, left, right⟩

end Series

end TradeBars.Trend
