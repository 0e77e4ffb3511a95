import TradeBars.Proofs.Trend.Locality

/-! Every series stands in line with the values that it is made of. At each index a moving value is
what its function makes of the values up to there, so that the angles of a whole series and the
angle of the last values alone come to the same. -/
namespace TradeBars.Trend
open Newest

section Rolling

variable {β γ : Type} {n : Nat} (undefined : γ) (f : List β → γ)

/-- The value at an index is the last one of the series up to there. -/
theorem getElem?_rolling_eq_lastValue (positive : 0 < n) {xs : List β} {i : Nat}
    (within : i < xs.length) :
    (rolling undefined f n xs)[i]? = some (lastValue undefined f n (xs.take (i + 1))) := by
  have length : (xs.take (i + 1)).length = i + 1 := List.length_take_of_le within
  have nonempty : xs.take (i + 1) ≠ [] := List.ne_nil_of_length_eq_add_one length
  have front := take_rolling undefined f positive (xs.take (i + 1)) (xs.drop (i + 1))
  rw [List.take_append_drop, length] at front
  have inside : i < (rolling undefined f n xs).length := by
    rwa [length_rolling undefined f positive]
  rw [← getLast?_rolling undefined f positive nonempty, ← front, List.getLast?_take]
  simp [inside]

/-- The last `n` of the first elements are those that end there. -/
theorem rtake_take {xs : List β} {i : Nat} (within : i < xs.length) :
    (xs.take (i + 1)).rtake n = xs.extract (i + 1 - n) (i + 1) := by
  rw [List.rtake, List.length_take_of_le within, List.extract_eq_take_drop, List.drop_take]

theorem getElem?_rolling (positive : 0 < n) {xs : List β} {i : Nat} (within : i < xs.length) :
    (rolling undefined f n xs)[i]? =
      some (if i + 1 < n then undefined else f (xs.extract (i + 1 - n) (i + 1))) := by
  rw [getElem?_rolling_eq_lastValue undefined f positive within, lastValue,
    List.length_take_of_le within, rtake_take within]

end Rolling

variable {α : Type} [Angular α]

theorem Window.exists_new {size : Nat} (two : 2 ≤ size) :
    ∃ w, Window.new size = .ok w ∧ w.size = size := ⟨⟨size, two⟩, dif_pos two, rfl⟩

theorem lastAngle_of_le {w : Window} {xs : List α} (enough : w.size ≤ xs.length) :
    w.lastAngle xs = fitAngle (xs.rtake w.size) := if_neg (Nat.not_lt_of_le enough)

/-- The angle at an index is undefined while there are too few values, and then it is the angle of
the last values up to there, which is fitted to as many of them as the window has. A moving average
is at every index the mean of the values that end there, and undefined where there are too few. -/
theorem angles_agree (xs : List α) :
    (∀ size, 2 ≤ size → ∃ w, Window.new size = .ok w ∧ angles xs size = .ok (w.angles xs) ∧
      (w.angles xs).length = xs.length ∧
      ∀ i < xs.length,
        (i < size - 1 → (w.angles xs)[i]? = some Angular.nan) ∧
        (size - 1 ≤ i → ∃ angle, (w.angles xs)[i]? = some angle ∧
          w.lastAngle (xs.take (i + 1)) = angle ∧
          lastAngle (xs.take (i + 1)) size = .ok angle ∧
          fitAngle (xs.extract (i + 1 - size) (i + 1)) = angle)) ∧
    ∀ length, 1 ≤ length →
      (movingAverage xs length).length = xs.length ∧
      ∀ i < xs.length,
        (i < length - 1 → (movingAverage xs length)[i]? = some Angular.nan) ∧
        (length - 1 ≤ i →
          (movingAverage xs length)[i]? = some (mean (xs.extract (i + 1 - length) (i + 1)))) := by
  constructor
  · intro size two
    obtain ⟨w, made, rfl⟩ := Window.exists_new two
    have positive : 0 < w.size := Nat.zero_lt_of_lt two
    have free (front : List α) : lastAngle front w.size = .ok (w.lastAngle front) := by
      simp [lastAngle, made, bind, Except.bind, pure, Except.pure]
    have series : angles xs w.size = .ok (w.angles xs) := by
      simp [angles, made, bind, Except.bind, pure, Except.pure]
    refine ⟨w, made, series, length_rolling _ _ positive xs, fun i within => ⟨?_, ?_⟩⟩
    · intro early
      rw [angles_eq, getElem?_rolling _ _ positive within, if_pos (by omega)]
    · intro late
      have enough : w.size ≤ (xs.take (i + 1)).length := by
        rw [List.length_take_of_le within]
        omega
      have last : w.lastAngle (xs.take (i + 1)) =
          fitAngle (xs.extract (i + 1 - w.size) (i + 1)) := by
        rw [lastAngle_of_le enough, rtake_take within]
      refine ⟨_, ?_, last, (free _).trans (congrArg _ last), rfl⟩
      rw [angles_eq, getElem?_rolling _ _ positive within, if_neg (by omega)]
  · intro length positive
    rw [movingAverage_eq positive]
    refine ⟨length_rolling _ _ positive xs, fun i within => ⟨?_, ?_⟩⟩
    · intro early
      rw [getElem?_rolling _ _ positive within, if_pos (by omega)]
    · intro late
      rw [getElem?_rolling _ _ positive within, if_neg (by omega)]

/-- Two of three values are too few for a window of three, and the third one is enough. The slope is
one, and the arctangent of one is what is put in for it. -/
theorem angles_agree_three :
    let quarter := Float.ofBits 0x3fe921fb54442d18
    let xs : List Float := [1, 2, 3]
    let w : Window := ⟨3, by decide⟩
    letI := Angular.ofArctangent (· * quarter)
    2 ≤ 3 ∧ 1 ≤ 2 ∧ Window.new 3 = .ok w ∧ angles xs 3 = .ok (w.angles xs) ∧
      (w.angles xs)[1]? = some Angular.nan ∧ (w.angles xs)[2]? = some 45 ∧
      w.lastAngle xs = 45 ∧ lastAngle xs 3 = .ok 45 ∧
      (movingAverage xs 2)[0]? = some Angular.nan ∧ (movingAverage xs 2)[2]? = some (5 / 2) := by
  intro quarter xs w
  let _ : Angular Float := .ofArctangent (· * quarter)
  obtain ⟨eachWindow, eachLength⟩ := angles_agree xs
  obtain ⟨_, made, series, -, each⟩ := eachWindow 3 (by decide)
  cases made
  obtain ⟨angle, found, bound, free, fitted⟩ := (each 2 (by decide)).2 (by decide)
  obtain rfl : 45 = angle := by
    rw [← fitted]
    decide +kernel
  obtain ⟨-, averages⟩ := eachLength 2 (by decide)
  have average := (averages 2 (by decide)).2 (by decide)
  have value : mean (xs.extract (2 + 1 - 2) (2 + 1)) = 5 / 2 := by decide +kernel
  exact ⟨by decide, by decide, rfl, series, (each 1 (by decide)).1 (by decide), found, bound, free,
    (averages 0 (by decide)).1 (by decide), value ▸ average⟩

end TradeBars.Trend
