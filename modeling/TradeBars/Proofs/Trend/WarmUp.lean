import TradeBars.Proofs.Config.Validity
import TradeBars.Proofs.Trend.Alignment
import TradeBars.Proofs.Trend.Overflow

/-! Features that are there are defined. A moving average is not a number until it has its closes,
and its angle is not a number until it has its averages: the two windows add up. The number of bars
that features wait for is the product of the lengths, which is not less, so that every newest value
is a number, unless a sum overflows. -/
namespace TradeBars.Trend
open Binary64 Newest

section Windows

variable {β γ : Type} {n k i : Nat} {xs : List β}

theorem take_drop_mem_windows {j : Nat} (within : j + n ≤ xs.length) :
    (xs.drop j).take n ∈ windows n xs :=
  List.mem_map.mpr ⟨j, List.mem_range.mpr (by omega), rfl⟩

theorem extract_mem_windows (within : i < xs.length) (full : n ≤ i + 1) :
    xs.extract (i + 1 - n) (i + 1) ∈ windows n xs := by
  have size : i + 1 - (i + 1 - n) = n := by omega
  rw [List.extract_eq_take_drop, size]
  exact take_drop_mem_windows (by omega)

theorem length_of_mem_windows {w : List β} (member : w ∈ windows n xs) : w.length = n := by
  obtain ⟨j, within, rfl⟩ := List.mem_map.mp member
  rw [List.mem_range] at within
  rw [List.length_take, List.length_drop]
  omega

theorem mem_of_mem_windows {w : List β} (member : w ∈ windows n xs) {x : β} (inside : x ∈ w) :
    x ∈ xs := by
  obtain ⟨j, -, rfl⟩ := List.mem_map.mp member
  exact List.mem_of_mem_drop (List.mem_of_mem_take inside)

theorem length_windows : (windows n xs).length = xs.length + 1 - n := by
  rw [windows, List.length_map, List.length_range]

variable (undefined : γ) (f : List β → γ)

/-- A window over a series starts with what is undefined, if it starts before the first values. -/
theorem undefined_mem_extract (positive : 0 < n) (wide : 0 < k) (within : i < xs.length)
    (full : k ≤ i + 1) (early : i + 2 < n + k) :
    undefined ∈ (rolling undefined f n xs).extract (i + 1 - k) (i + 1) := by
  have first : (rolling undefined f n xs)[i + 1 - k]? = some undefined := by
    rw [getElem?_rolling undefined f positive (by omega), if_pos (by omega)]
  have size : i + 1 - (i + 1 - k) = k := by omega
  apply List.mem_of_getElem? (i := 0)
  rw [List.extract_eq_take_drop, size, List.getElem?_take_of_lt wide, List.getElem?_drop]
  exact first

/-- From the first values on, it is one over the values alone. -/
theorem extract_rolling_mem (positive : 0 < n) (within : i < xs.length) (late : n + k ≤ i + 2) :
    (rolling undefined f n xs).extract (i + 1 - k) (i + 1) ∈
      windows k ((windows n xs).map f) := by
  have size : i + 1 - (i + 1 - k) = k := by omega
  have front : (List.replicate (min xs.length (n - 1)) undefined).length = n - 1 := by
    rw [List.length_replicate]
    omega
  rw [List.extract_eq_take_drop, size, rolling, List.drop_append, List.drop_eq_nil_of_le (by omega),
    List.nil_append, front]
  apply take_drop_mem_windows
  rw [List.length_map, length_windows]
  omega

end Windows

section Angles

variable {arctangent : Float → Float}

theorem isNaN_nan : Scalar.isNaN (Angular.ofArctangent arctangent).nan = true := by
  change Scalar.isNaN (Float.ofBits 0x7ff8000000000000) = true
  decide

theorem isNaN_fitAngle (keeps : ∀ x, Scalar.isNaN (arctangent x) = Scalar.isNaN x)
    (ys : List Float) :
    letI := Angular.ofArctangent arctangent
    Scalar.isNaN (fitAngle ys) = Scalar.isNaN (slope ys) := by
  rw [← keeps (slope ys)]
  exact isNaN_mul_of_nonzero (arctangent (slope ys)) (by decide) (by decide)

end Angles

/-- No sum overflows in the averages of `n` closes or in the fits to `k` of these. -/
def Steady (closes : List Float) (n k : Nat) : Prop :=
  (∀ w ∈ windows n closes, SteadyMean w) ∧
    ∀ ys ∈ windows k ((windows n closes).map mean), SteadyFit ys

instance (closes : List Float) (n k : Nat) : Decidable (Steady closes n k) :=
  inferInstanceAs (Decidable (_ ∧ _))

/-- The averages of `n` closes and the angles of `k` averages, and the newest of both: numbers
wherever there are enough closes for them. -/
structure WarmedUp (fit : List Float → Float) (closes : List Float) (n k : Nat)
    (averages angles : List Float) (average angle : Float) : Prop where
  length_averages : averages.length = closes.length
  length_angles : angles.length = closes.length
  isNaN_averages : ∀ i x, averages[i]? = some x → (Scalar.isNaN x = true ↔ i < n - 1)
  isNaN_angles : ∀ i x, angles[i]? = some x → (Scalar.isNaN x = true ↔ i < n + k - 2)
  last_average : averages.getLast? = some average
  last_angle : angles.getLast? = some angle
  isNaN_average : Scalar.isNaN average = false
  isNaN_angle : Scalar.isNaN angle = false
  length_fitted : (averages.rtake k).length = k
  genuine : ∀ m ∈ averages.rtake k, Scalar.isNaN m = false ∧ ∃ w ∈ windows n closes, mean w = m
  angle_eq : fit (averages.rtake k) = angle

section Series

variable {arctangent : Float → Float} {closes : List Float} {n k : Nat}
variable (finite : ∀ x ∈ closes, Scalar.isFinite x = true) (steady : Steady closes n k)
variable (positive : 0 < n) (few : n < 2 ^ 64)

include finite steady few in
theorem isFinite_means : ∀ m ∈ (windows n closes).map mean, Scalar.isFinite m = true := by
  intro m member
  obtain ⟨w, inside, rfl⟩ := List.mem_map.mp member
  apply isFinite_mean (fun x among => finite x (mem_of_mem_windows inside among))
    (steady.1 w inside)
  rwa [length_of_mem_windows inside]

include finite steady positive few

variable {nan : Float} (undefined : Scalar.isNaN nan = true)
include undefined

theorem isNaN_averages {i : Nat} {x : Float} (found : (rolling nan mean n closes)[i]? = some x) :
    Scalar.isNaN x = true ↔ i < n - 1 := by
  have within : i < closes.length := by
    have within := (List.getElem?_eq_some_iff.mp found).1
    rwa [length_rolling nan mean positive] at within
  rw [getElem?_rolling nan mean positive within, Option.some_inj] at found
  subst found
  split
  · exact iff_of_true undefined (by omega)
  · have mean := isFinite_means finite steady few _ (List.mem_map_of_mem
      (extract_mem_windows within (by omega)))
    rw [isNaN_of_isFinite mean]
    exact iff_of_false Bool.false_ne_true (by omega)

variable (keeps : ∀ x, Scalar.isNaN (arctangent x) = Scalar.isNaN x) (three : 3 ≤ k)
  (few' : k < 2 ^ 64)
include keeps three few'

theorem isNaN_angles {i : Nat} {x : Float} :
    letI := Angular.ofArctangent arctangent
    (rolling nan fitAngle k (rolling nan mean n closes))[i]? = some x →
      (Scalar.isNaN x = true ↔ i < n + k - 2) := by
  intro found
  have wide : 0 < k := by omega
  have within : i < closes.length := by
    have within := (List.getElem?_eq_some_iff.mp found).1
    rwa [length_rolling nan _ wide, length_rolling nan mean positive] at within
  rw [getElem?_rolling nan _ wide (by rwa [length_rolling nan mean positive]),
    Option.some_inj] at found
  subst found
  split
  · exact iff_of_true undefined (by omega)
  · rw [isNaN_fitAngle keeps]
    -- a window of averages is one of means alone from the index on where the first of them is one
    by_cases early : i < n + k - 2
    · have member := undefined_mem_extract nan mean positive wide within (by omega) (by omega)
      exact iff_of_true (isNaN_slope_of_mem member undefined) early
    · have member := extract_rolling_mem nan mean positive within (k := k) (by omega)
      have means := isFinite_means finite steady few
      have length := length_of_mem_windows member
      have number := isNaN_slope (fun y inside => means y (mem_of_mem_windows member inside))
        (steady.2 _ member) (by rwa [length]) (by rwa [length])
      rw [number]
      exact iff_of_false Bool.false_ne_true early

theorem warmedUp (enough : n + k ≤ closes.length + 1) :
    letI := Angular.ofArctangent arctangent
    let averages := rolling nan mean n closes
    WarmedUp fitAngle closes n k averages (rolling nan fitAngle k averages)
      (lastValue nan mean n closes) (lastValue nan fitAngle k averages) := by
  intro averages
  let _ : Angular Float := .ofArctangent arctangent
  have wide : 0 < k := by omega
  have length : averages.length = closes.length := length_rolling nan mean positive closes
  have length' : (rolling nan fitAngle k averages).length = closes.length :=
    (length_rolling nan _ wide averages).trans length
  have nonempty : closes ≠ [] := List.ne_nil_of_length_pos (by omega)
  have nonempty' : averages ≠ [] := List.ne_nil_of_length_pos (by omega)
  have last := getLast?_rolling nan mean positive nonempty
  have last' := getLast?_rolling nan fitAngle wide nonempty'
  have defined {i : Nat} {x : Float} (found : averages[i]? = some x) :=
    isNaN_averages finite steady positive few undefined found
  have defined' {i : Nat} {x : Float} (found : (rolling nan fitAngle k averages)[i]? =
      some x) := isNaN_angles finite steady positive few undefined keeps three few' found
  have fitted : averages.rtake k ∈ windows k ((windows n closes).map mean) := by
    have inside : closes.length - 1 < closes.length := by omega
    have member := extract_rolling_mem nan mean positive inside (k := k) (by omega)
    rwa [← rtake_take (inside.trans_eq length.symm), List.take_of_length_le (by omega)] at member
  have means := isFinite_means finite steady few
  refine
    { length_averages := length
      length_angles := length'
      isNaN_averages := fun i x => defined
      isNaN_angles := fun i x => defined'
      last_average := last
      last_angle := last'
      isNaN_average := ?_
      isNaN_angle := ?_
      length_fitted := length_of_mem_windows fitted
      genuine := ?_
      angle_eq := (if_neg (by omega)).symm }
  · rw [List.getLast?_eq_getElem?] at last
    rw [Bool.eq_false_iff, ne_eq, defined last, length_rolling nan mean positive]
    omega
  · rw [List.getLast?_eq_getElem?] at last'
    rw [Bool.eq_false_iff, ne_eq, defined' last', length']
    omega
  · intro m inside
    have among := mem_of_mem_windows fitted inside
    exact ⟨isNaN_of_isFinite (means m among), List.mem_map.mp among⟩

end Series

/-- Features are there as soon as there are more bars than the longest average has closes, for each
of the averages that the angle is fitted to, if a word holds that number. Then a value is not a
number exactly where its window is not full yet, where not-a-number in a window goes through to its
mean and to its angle, and the newest values are numbers, each angle the one of averages that are. -/
theorem features_warmed_up (arctangent : Float → Float)
    (keeps : ∀ x, Scalar.isNaN (arctangent x) = Scalar.isNaN x) (config : Config.TrendAngle)
    (valid : config.fault? = none)
    (fits : max (max config.average1.toNat config.average2.toNat) config.average3.toNat *
      config.angle.toNat < UInt64.size) (bars : List (Bar Float))
    (finite : ∀ b ∈ bars, Scalar.isFinite b.close = true)
    (steady : ∀ n ∈ [config.average1, config.average2, config.average3],
      Steady (bars.map (·.close)) n.toNat config.angle.toNat) :
    letI := Angular.ofArctangent arctangent
    let closes := bars.map (·.close)
    let warmedUp (n : UInt64) := WarmedUp fitAngle closes n.toNat config.angle.toNat
    (∃ f, features bars config = .ok f ∧ (f.isSome ↔
      max (max config.average1.toNat config.average2.toNat) config.average3.toNat *
        config.angle.toNat < bars.length)) ∧
    (∀ f, features bars config = .ok (some f) → ∃ newest, f.latest? = some newest ∧
      warmedUp config.average1 f.average1 f.angle1 newest.average1 newest.angle1 ∧
      warmedUp config.average2 f.average2 f.angle2 newest.average2 newest.angle2 ∧
      warmedUp config.average3 f.average3 f.angle3 newest.average3 newest.angle3) ∧
    ∀ (w : List Float) (x : Float), x ∈ w → Scalar.isNaN x = true →
      Scalar.isNaN (mean w) = true ∧ Scalar.isNaN (fitAngle w) = true := by
  intro closes warmedUp
  let _ : Angular Float := .ofArctangent arctangent
  have ready := features_of_valid valid bars
  rw [minBars_eq fits] at ready
  refine ⟨ready, ?_, ?_⟩
  · intro f made
    obtain ⟨-, enough, window, found, rfl⟩ := features_eq_some_iff.mp made
    obtain ⟨three, first, second, third⟩ := fault?_eq_none_iff.mp valid
    have usable := usable_of_valid valid found
    have within := reach_le_minBars fits valid
    unfold reach at within
    have size : closes.length = bars.length := List.length_map _
    have nonempty : closes ≠ [] := List.ne_nil_of_length_pos (by omega)
    have values : ∀ x ∈ closes, Scalar.isFinite x = true := List.forall_mem_map.mpr finite
    have each {n : UInt64} (steady : Steady closes n.toNat config.angle.toNat)
        (positive : 0 < n.toNat) (enough : n.toNat + config.angle.toNat ≤ closes.length + 1) :
        warmedUp n (movingAverage closes n.toNat) (window.angles (movingAverage closes n.toNat))
          (lastValue Angular.nan mean n.toNat closes)
          (lastValue Angular.nan fitAngle window.size
            (rolling Angular.nan mean n.toNat closes)) := by
      rw [movingAverage_eq positive, angles_eq, usable.size]
      exact Trend.warmedUp values steady positive n.toNat_lt isNaN_nan keeps three
        config.angle.toNat_lt enough
    simp only [List.forall_mem_cons] at steady
    obtain ⟨steady1, steady2, steady3, -⟩ := steady
    exact ⟨_, latest?_series usable nonempty, each steady1 usable.average1 (by omega),
      each steady2 usable.average2 (by omega), each steady3 usable.average3 (by omega)⟩
  · intro w x member nan
    refine ⟨isNaN_mean_of_mem member nan, ?_⟩
    rw [isNaN_fitAngle keeps]
    exact isNaN_slope_of_mem member nan

/-- The second angle of an average of two closes is there at the fourth of seven. The slopes are one,
and the arctangent of one is what is put in for it. -/
theorem features_warmed_up_seven :
    let quarter := Float.ofBits 0x3fe921fb54442d18
    let config : Config.TrendAngle := ⟨2, 2, 2, 3⟩
    let bar (i : Nat) : Bar Float := .ofTrade ⟨i, ofInt i, 1, .buy, "BTC-USDT"⟩
    let bars := (List.range 7).map bar
    letI := Angular.ofArctangent (· * quarter)
    (∀ x, Scalar.isNaN (x * quarter) = Scalar.isNaN x) ∧ config.fault? = none ∧
      max (max 2 2) 2 * 3 < UInt64.size ∧
      (∀ b ∈ bars, Scalar.isFinite b.close = true) ∧ Steady (bars.map (·.close)) 2 3 ∧
      ∃ f newest, features bars config = .ok (some f) ∧ f.latest? = some newest ∧
        WarmedUp fitAngle (bars.map (·.close)) 2 3 f.average1 f.angle1 newest.average1
          newest.angle1 := by
  intro quarter config bar bars
  have keeps (x : Float) : Scalar.isNaN (x * quarter) = Scalar.isNaN x :=
    isNaN_mul_of_nonzero x (by decide) (by decide)
  have finite : ∀ b ∈ bars, Scalar.isFinite b.close = true := by decide
  have steady : Steady (bars.map (·.close)) 2 3 := by decide
  obtain ⟨⟨f, made, ready⟩, each, -⟩ := features_warmed_up (· * quarter) keeps config (by decide)
    (by decide) bars finite (by simpa [config] using steady)
  obtain ⟨f, rfl⟩ := Option.isSome_iff_exists.mp (ready.mpr (by decide))
  obtain ⟨newest, latest, first, -⟩ := each f made
  exact ⟨keeps, by decide, by decide, finite, steady, f, newest, made, latest, first⟩

/-- Finite means are not enough for an angle. The greatest closes at both ends of a fit make products
that overflow to either side, and their sum is not a number. With lengths whose product wraps around
to zero a single bar gives features, and none of their values is a number. -/
theorem features_of_greatest_values :
    let greatest := Float.ofBits 0x7fefffffffffffff
    let quarter := Float.ofBits 0x3fe921fb54442d18
    let config : Config.TrendAngle := ⟨2, 2, 2, 6⟩
    let closes := [0, 0, 0, 0, 0, 0, greatest, greatest, 0, 0, 0, greatest, greatest]
    let bars := closes.map fun close : Float => Bar.ofTrade ⟨0, close, 1, .buy, "BTC-USDT"⟩
    let means := (windows 2 closes).map mean
    let wide : Config.TrendAngle := ⟨2, 2, 4611686018427387904, 4⟩
    letI := Angular.ofArctangent (· * quarter)
    (config.fault? = none ∧ (∀ b ∈ bars, Scalar.isFinite b.close = true) ∧ 2 * 6 < bars.length ∧
      (∀ w ∈ windows 2 closes, SteadyMean w) ∧ (∀ ys ∈ windows 6 means, SteadyMean ys) ∧
      ∃ f newest, features bars config = .ok (some f) ∧ f.latest? = some newest ∧
        Scalar.isNaN newest.average1 = false ∧ Scalar.isNaN newest.angle1 = true) ∧
    wide.fault? = none ∧ (bars.take 1).length ≤ wide.average3.toNat * wide.angle.toNat ∧
      ∃ f newest, features (bars.take 1) wide = .ok (some f) ∧ f.latest? = some newest ∧
        Scalar.isNaN newest.average1 = true ∧ Scalar.isNaN newest.angle1 = true := by
  intro greatest quarter config closes bars means wide
  let _ : Angular Float := .ofArctangent (· * quarter)
  constructor
  · have made : features bars config = .ok (some _) :=
      features_eq_some_iff.mpr ⟨by decide, by decide, ⟨6, by decide⟩, rfl, rfl⟩
    have usable : Usable ⟨6, by decide⟩ config := ⟨by decide, by decide, by decide, rfl⟩
    exact ⟨by decide, by decide, by decide, by decide, by decide, _, _, made,
      latest?_series usable (by decide), by decide, by decide +kernel⟩
  · have made : features (bars.take 1) wide = .ok (some _) :=
      features_eq_some_iff.mpr ⟨by decide, by decide, ⟨4, by decide⟩, rfl, rfl⟩
    have usable : Usable ⟨4, by decide⟩ wide := ⟨by decide, by decide, by decide, rfl⟩
    exact ⟨by decide, by decide, _, _, made, latest?_series usable (by decide), by decide,
      by decide⟩

end TradeBars.Trend
