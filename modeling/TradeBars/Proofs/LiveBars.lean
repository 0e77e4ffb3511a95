import TradeBars.Builder
import TradeBars.Proofs.Chunks

/-! The bars that trades give as long as none is given up: one bar for each group of
`threshold` trades. Taking trades one by one, with the newest bar open until it has its
trades, gives the same list. -/
namespace TradeBars

variable {α : Type} [Scalar α]

/-- The bar of some trades in turn; there is none without a trade. -/
def Bar.ofTrades? : List (Trade α) → Option (Bar α)
  | [] => none
  | t :: ts => some (ts.foldl Bar.add (.ofTrade t))

def liveBars (threshold : UInt32) (ts : List (Trade α)) : List (Bar α) :=
  (chunks threshold.toNat ts).filterMap Bar.ofTrades?

/-- One more trade for a list of bars, of which the newest may still be open. -/
def feed (threshold : UInt32) (bars : List (Bar α)) (t : Trade α) : List (Bar α) :=
  if bars.getLast?.any (·.tradeCount < threshold) then bars.modifyLast (·.add t)
  else bars ++ [.ofTrade t]

def feedAll (threshold : UInt32) (bars : List (Bar α)) (ts : List (Trade α)) : List (Bar α) :=
  ts.foldl (feed threshold) bars

namespace LiveBars
open Chunks Newest

section FilterMap

variable {β γ : Type} {f : β → Option γ} {xs : List β} (all : ∀ x ∈ xs, (f x).isSome)
include all

theorem map_some_filterMap : (xs.filterMap f).map some = xs.map f := by
  rw [List.map_filterMap_some_eq_filter_map_isSome, List.filter_eq_self]
  intro made member
  obtain ⟨x, inside, rfl⟩ := List.mem_map.mp member
  exact all x inside

theorem length_filterMap : (xs.filterMap f).length = xs.length := by
  have same := congrArg List.length (map_some_filterMap all)
  rwa [List.length_map, List.length_map] at same

theorem getElem?_filterMap {i : Nat} {y : γ} (found : (xs.filterMap f)[i]? = some y) :
    ∃ x, xs[i]? = some x ∧ f x = some y := by
  have same : ((xs.filterMap f).map some)[i]? = (xs.map f)[i]? := by rw [map_some_filterMap all]
  rw [List.getElem?_map, List.getElem?_map, found, Option.map_some] at same
  exact Option.map_eq_some_iff.mp same.symm

theorem forall₂_filterMap {r : β → γ → Prop} (each : ∀ x ∈ xs, ∀ y, f x = some y → r x y) :
    List.Forall₂ r xs (xs.filterMap f) := by
  induction xs with
  | nil => exact List.Forall₂.nil
  | cons x xs ih =>
    simp only [List.forall_mem_cons] at all each
    obtain ⟨y, made⟩ := Option.isSome_iff_exists.mp all.1
    rw [List.filterMap_cons_some made]
    exact List.Forall₂.cons (each.1 y made) (ih all.2 each.2)

end FilterMap

theorem ofTrades?_isSome {ts : List (Trade α)} (nonempty : ts ≠ []) :
    ∃ bar, Bar.ofTrades? ts = some bar := by
  cases ts with
  | nil => exact absurd rfl nonempty
  | cons t ts => exact ⟨_, rfl⟩

theorem ofTrades?_concat {ts : List (Trade α)} {bar : Bar α} (made : Bar.ofTrades? ts = some bar)
    (t : Trade α) : Bar.ofTrades? (ts ++ [t]) = some (bar.add t) := by
  cases ts with
  | nil => contradiction
  | cons first ts =>
    cases made
    rw [List.cons_append, Bar.ofTrades?, List.foldl_concat]

/-- What holds of the bar of one trade, and goes on to hold with one more trade, holds of each bar
and its trades. -/
theorem ofTrades?_induction {p : List (Trade α) → Bar α → Prop} (one : ∀ t, p [t] (.ofTrade t))
    (more : ∀ ts bar t, p ts bar → p (ts ++ [t]) (bar.add t)) {ts : List (Trade α)} {bar : Bar α}
    (made : Bar.ofTrades? ts = some bar) : p ts bar := by
  induction ts using List.reverseRecOn generalizing bar with
  | nil => contradiction
  | append_singleton ts t ih =>
    by_cases empty : ts = []
    · subst empty
      cases made
      exact one t
    · obtain ⟨before, earlier⟩ := ofTrades?_isSome empty
      rw [ofTrades?_concat earlier] at made
      cases made
      exact more ts before t (ih earlier)

/-- The count does not wrap around as long as the number of trades fits in its word. -/
theorem tradeCount_ofTrades? {ts : List (Trade α)} {bar : Bar α} (fits : ts.length < 2 ^ 32)
    (made : Bar.ofTrades? ts = some bar) : bar.tradeCount.toNat = ts.length := by
  refine ofTrades?_induction
    (p := fun ts bar => ts.length < 2 ^ 32 → bar.tradeCount.toNat = ts.length) ?_ ?_ made fits
  · exact fun _ _ => rfl
  · intro ts before t ih fits
    rw [List.length_append, List.length_singleton] at fits ⊢
    change (before.tradeCount + 1).toNat = _
    rw [UInt32.toNat_add, ih (Nat.lt_of_succ_lt fits)]
    exact Nat.mod_eq_of_lt fits

theorem liveBars_of_last {threshold : UInt32} {ts last : List (Trade α)}
    {front : List (List (Trade α))} {bar : Bar α}
    (groups : chunks threshold.toNat ts = front ++ [last]) (made : Bar.ofTrades? last = some bar) :
    liveBars threshold ts = front.filterMap Bar.ofTrades? ++ [bar] := by
  rw [liveBars, groups, List.filterMap_append, List.filterMap_cons, made]
  rfl

theorem liveBars_nil (threshold : UInt32) : liveBars threshold ([] : List (Trade α)) = [] := by
  rw [liveBars, chunks_nil, List.filterMap_nil]

/-- The newest bar is open as long as it does not have all its trades. -/
theorem open_iff {threshold : UInt32} (positive : 0 < threshold.toNat) (ts : List (Trade α)) :
    (liveBars threshold ts).getLast?.any (·.tradeCount < threshold) = true ↔
      ¬threshold.toNat ∣ ts.length := by
  have fits : threshold.toNat < 2 ^ 32 := threshold.toNat_lt
  by_cases whole : threshold.toNat ∣ ts.length
  · cases ts with
    | nil => simp [liveBars_nil]
    | cons first ts =>
      obtain ⟨front, last, length, groups⟩ := last_of_dvd (List.cons_ne_nil first ts) whole
      have nonempty : last ≠ [] := List.ne_nil_of_length_pos (length ▸ positive)
      obtain ⟨bar, made⟩ := ofTrades?_isSome nonempty
      have count := tradeCount_ofTrades? (length ▸ fits) made
      rw [liveBars_of_last groups made, List.getLast?_concat, Option.any_some, decide_eq_true_eq,
        UInt32.lt_iff_toNat_lt, count, length]
      exact iff_of_false (Nat.lt_irrefl _) (not_not_intro whole)
  · obtain ⟨t⟩ : Nonempty (Trade α) := by
      cases ts with
      | nil => exact absurd (Nat.dvd_zero _) whole
      | cons first _ => exact ⟨first⟩
    obtain ⟨front, last, nonempty, short, groups, -⟩ := chunks_concat_of_not_dvd positive whole t
    obtain ⟨bar, made⟩ := ofTrades?_isSome nonempty
    have count := tradeCount_ofTrades? (short.trans fits) made
    rw [liveBars_of_last groups made, List.getLast?_concat, Option.any_some, decide_eq_true_eq,
      UInt32.lt_iff_toNat_lt, count]
    exact iff_of_true short whole

theorem not_open_eq {threshold : UInt32} (positive : 0 < threshold.toNat) (ts : List (Trade α)) :
    (!(liveBars threshold ts).getLast?.any (·.tradeCount < threshold)) =
      decide (ts.length % threshold.toNat = 0) := by
  rw [Bool.eq_iff_iff, Bool.not_eq_true', ← Bool.not_eq_true, open_iff positive, not_not,
    decide_eq_true_eq, Nat.dvd_iff_mod_eq_zero]

theorem liveBars_concat {threshold : UInt32} (positive : 0 < threshold.toNat) (ts : List (Trade α))
    (t : Trade α) : liveBars threshold (ts ++ [t]) = feed threshold (liveBars threshold ts) t := by
  by_cases whole : threshold.toNat ∣ ts.length
  · rw [feed, if_neg (fun isOpen => (open_iff positive ts).mp isOpen whole), liveBars,
      chunks_concat_of_dvd positive whole, List.filterMap_append]
    rfl
  · obtain ⟨front, last, nonempty, -, before, after⟩ := chunks_concat_of_not_dvd positive whole t
    obtain ⟨bar, made⟩ := ofTrades?_isSome nonempty
    rw [feed, if_pos ((open_iff positive ts).mpr whole), liveBars_of_last before made,
      List.modifyLast_concat, liveBars_of_last after (ofTrades?_concat made t)]

theorem liveBars_append {threshold : UInt32} (positive : 0 < threshold.toNat)
    (ts us : List (Trade α)) :
    liveBars threshold (ts ++ us) = feedAll threshold (liveBars threshold ts) us := by
  induction us using List.reverseRecOn with
  | nil => rw [List.append_nil]; rfl
  | append_singleton us t ih =>
    rw [← List.append_assoc, liveBars_concat positive, ih, feedAll, feedAll, List.foldl_concat]

theorem feedAll_nil {threshold : UInt32} (positive : 0 < threshold.toNat) (ts : List (Trade α)) :
    feedAll threshold [] ts = liveBars threshold ts := by
  rw [← liveBars_nil, ← liveBars_append positive, List.nil_append]

theorem isSome_of_mem_chunks {threshold : UInt32} (positive : 0 < threshold.toNat)
    {ts chunk : List (Trade α)} (member : chunk ∈ chunks threshold.toNat ts) :
    (Bar.ofTrades? chunk).isSome := by
  have nonempty := List.ne_nil_of_length_pos (length_of_mem_chunks positive member).1
  obtain ⟨bar, made⟩ := ofTrades?_isSome nonempty
  rw [made, Option.isSome_some]

theorem map_some_liveBars {threshold : UInt32} (positive : 0 < threshold.toNat)
    (ts : List (Trade α)) :
    (liveBars threshold ts).map some = (chunks threshold.toNat ts).map Bar.ofTrades? :=
  map_some_filterMap fun _ => isSome_of_mem_chunks positive

/-- What holds of the bar of each group holds of the bars of all trades, one for each group. -/
theorem forall₂_liveBars {threshold : UInt32} (positive : 0 < threshold.toNat)
    {ts : List (Trade α)} {r : List (Trade α) → Bar α → Prop}
    (each : ∀ chunk ∈ chunks threshold.toNat ts, ∀ bar, Bar.ofTrades? chunk = some bar →
      r chunk bar) : List.Forall₂ r (chunks threshold.toNat ts) (liveBars threshold ts) :=
  forall₂_filterMap (fun _ => isSome_of_mem_chunks positive) each

theorem tradeCount_liveBars {threshold : UInt32} (positive : 0 < threshold.toNat)
    (ts : List (Trade α)) : (liveBars threshold ts).map (·.tradeCount.toNat) =
      (chunks threshold.toNat ts).map List.length := by
  have fits : threshold.toNat < 2 ^ 32 := threshold.toNat_lt
  apply List.map_injective_iff.mpr (Option.some_injective Nat)
  calc ((liveBars threshold ts).map (·.tradeCount.toNat)).map some
    _ = ((liveBars threshold ts).map some).map (Option.map (·.tradeCount.toNat)) := by
      rw [List.map_map, List.map_map]
      rfl
    _ = ((chunks threshold.toNat ts).map Bar.ofTrades?).map (Option.map (·.tradeCount.toNat)) := by
      rw [map_some_liveBars positive]
    _ = ((chunks threshold.toNat ts).map List.length).map some := by
      rw [List.map_map, List.map_map]
      apply List.map_congr_left
      intro chunk member
      obtain ⟨nonempty, short⟩ := length_of_mem_chunks positive member
      obtain ⟨bar, made⟩ := ofTrades?_isSome (List.ne_nil_of_length_pos nonempty)
      have count := tradeCount_ofTrades? (short.trans_lt fits) made
      rw [Function.comp_apply, made, Option.map_some, count, Function.comp_apply]

theorem length_liveBars {threshold : UInt32} (positive : 0 < threshold.toNat)
    (ts : List (Trade α)) : (liveBars threshold ts).length = ts.length ⌈/⌉ threshold.toNat := by
  have same := congrArg List.length (map_some_liveBars positive ts)
  rwa [List.length_map, List.length_map, length_chunks] at same

section Feed

variable {threshold : UInt32} {bars : List (Bar α)}

theorem feed_ne_nil (threshold : UInt32) (bars : List (Bar α)) (t : Trade α) :
    feed threshold bars t ≠ [] := by
  unfold feed
  split
  · next isOpen =>
    have nonempty : bars ≠ [] := by
      rintro rfl
      contradiction
    rw [← List.length_pos_iff_ne_nil, length_modifyLast]
    exact List.length_pos_of_ne_nil nonempty
  · exact List.concat_ne_nil _ _

theorem length_le_feed (threshold : UInt32) (bars : List (Bar α)) (t : Trade α) :
    bars.length ≤ (feed threshold bars t).length := by
  unfold feed
  split
  · exact (length_modifyLast _ _).ge
  · rw [List.length_append]
    exact Nat.le_add_right _ _

theorem feed_append (older : List (Bar α)) (nonempty : bars ≠ []) (t : Trade α) :
    feed threshold (older ++ bars) t = older ++ feed threshold bars t := by
  rw [feed, feed, List.getLast?_append_of_ne_nil _ nonempty]
  split
  · exact List.modifyLast_append_of_right_ne_nil _ _ _ nonempty
  · exact List.append_assoc _ _ _

/-- The first bar may take the trade, but not its timestamp. -/
theorem head?_feed (threshold : UInt32) {time : Int}
    (first : bars.head?.map (·.timestamp) = some time) (t : Trade α) :
    (feed threshold bars t).head?.map (·.timestamp) = some time := by
  cases bars with
  | nil => contradiction
  | cons bar rest =>
    rw [← first]
    unfold feed
    split
    · rw [List.head?_eq_getElem?, List.head?_eq_getElem?, getElem?_modifyLast]
      split <;> rfl
    · rfl

theorem head?_feedAll (threshold : UInt32) {time : Int}
    (first : bars.head?.map (·.timestamp) = some time) (ts : List (Trade α)) :
    (feedAll threshold bars ts).head?.map (·.timestamp) = some time := by
  induction ts generalizing bars with
  | nil => exact first
  | cons t ts ih => exact ih (head?_feed threshold first t)

end Feed

section Older

variable {threshold : UInt32} {ts : List (Trade α)} {older : List (Bar α)}

theorem liveBars_ne_nil (positive : 0 < threshold.toNat) (nonempty : ts ≠ []) :
    liveBars threshold ts ≠ [] := by
  obtain rfl | ⟨front, t, rfl⟩ := List.eq_nil_or_concat ts
  · contradiction
  · rw [List.concat_eq_append, liveBars_concat positive]
    exact feed_ne_nil _ _ _

/-- Bars in front of those of some trades do not see the next trade. -/
theorem feed_append_liveBars (positive : 0 < threshold.toNat) (anchored : ts = [] → older = [])
    (t : Trade α) :
    feed threshold (older ++ liveBars threshold ts) t = older ++ liveBars threshold (ts ++ [t]) := by
  rw [liveBars_concat positive]
  by_cases empty : ts = []
  · rw [anchored empty, List.nil_append, List.nil_append]
  · exact feed_append older (liveBars_ne_nil positive empty) t

theorem not_open_append (positive : 0 < threshold.toNat) (anchored : ts = [] → older = []) :
    (!(older ++ liveBars threshold ts).getLast?.any (·.tradeCount < threshold)) =
      decide (ts.length % threshold.toNat = 0) := by
  rw [← not_open_eq positive ts]
  by_cases empty : ts = []
  · rw [anchored empty, List.nil_append]
  · rw [List.getLast?_append_of_ne_nil _ (liveBars_ne_nil positive empty)]

end Older

end LiveBars

end TradeBars
