import Mathlib.Data.List.Forall2

/-! Steps that may fail, one after another. The first fault decides what comes out of them, and
where there is something else in the end, none of them failed. -/
namespace TradeBars

variable {β γ ε : Type}

theorem exists_of_bind {x : Except ε β} {f : β → Except ε γ} {y : γ} (made : x >>= f = .ok y) :
    ∃ a, x = .ok a ∧ f a = .ok y := by
  cases x with
  | error e => contradiction
  | ok a => exact ⟨a, rfl, made⟩

/-- What comes out of two steps, by what may come out of each. -/
inductive Then (first : Except ε β → Prop) (next : β → Except ε γ → Prop) : Except ε γ → Prop where
  | fault {e : ε} : first (.error e) → Then first next (.error e)
  | next {x : β} {r : Except ε γ} : first (.ok x) → next x r → Then first next r

section Then

variable {first : Except ε β → Prop} {next : β → Except ε γ → Prop}

theorem bind_eq_iff {x : Except ε β} {f : β → Except ε γ} (isFirst : ∀ r, x = r ↔ first r)
    (isNext : ∀ y r, f y = r ↔ next y r) (r : Except ε γ) : x >>= f = r ↔ Then first next r := by
  constructor
  · rintro rfl
    cases made : x with
    | error e => exact .fault ((isFirst _).mp made)
    | ok y => exact .next ((isFirst _).mp made) ((isNext y _).mp rfl)
  · intro both
    cases both with
    | fault failed =>
      rw [(isFirst _).mpr failed]
      rfl
    | next one other =>
      rw [(isFirst _).mpr one]
      exact (isNext _ _).mpr other

theorem Then.ok_iff {y : γ} : Then first next (.ok y) ↔ ∃ x, first (.ok x) ∧ next x (.ok y) := by
  constructor
  · rintro (_ | ⟨one, other⟩)
    exact ⟨_, one, other⟩
  · rintro ⟨x, one, other⟩
    exact .next one other

end Then

/-- What comes out of one step for each element: the results of all, or the first fault. -/
inductive Each (passes : β → γ → Prop) (fails : β → ε → Prop) (xs : List β) :
    Except ε (List γ) → Prop where
  | all {ys : List γ} : List.Forall₂ passes xs ys → Each passes fails xs (.ok ys)
  | first {before after : List β} {x : β} {e : ε} : xs = before ++ x :: after →
      (∀ b ∈ before, ∃ y, passes b y) → fails x e → Each passes fails xs (.error e)

section Each

variable {f : β → Except ε γ} {passes : β → γ → Prop} {fails : β → ε → Prop}

theorem Each.cons {x : β} {y : γ} {xs : List β} (given : passes x y) {r : Except ε (List γ)}
    (each : Each passes fails xs r) : Each passes fails (x :: xs) (r.map (y :: ·)) := by
  cases each with
  | all given' => exact .all (.cons given given')
  | @first before after z e parts earlier failed =>
    have parts : x :: xs = x :: before ++ z :: after := congrArg (x :: ·) parts
    exact .first parts (List.forall_mem_cons.mpr ⟨⟨y, given⟩, earlier⟩) failed

theorem mapM_cons_of_ok {x : β} {y : γ} (given : f x = .ok y) (xs : List β) :
    (x :: xs).mapM f = (xs.mapM f).map (y :: ·) := by
  rw [List.mapM_cons, given]
  cases xs.mapM f <;> rfl

theorem mapM_eq_iff (isOk : ∀ x y, f x = .ok y ↔ passes x y)
    (isFault : ∀ x e, f x = .error e ↔ fails x e) (xs : List β) (r : Except ε (List γ)) :
    xs.mapM f = r ↔ Each passes fails xs r := by
  constructor
  · rintro rfl
    induction xs with
    | nil => exact .all .nil
    | cons x xs ih =>
      cases made : f x with
      | ok y =>
        rw [mapM_cons_of_ok made]
        exact ih.cons ((isOk x y).mp made)
      | error e =>
        rw [List.mapM_cons, made]
        exact .first (List.nil_append _).symm nofun ((isFault x e).mp made)
  · intro each
    cases each with
    | all given =>
      induction given with
      | nil => rfl
      | cons one _ ih =>
        rw [mapM_cons_of_ok ((isOk _ _).mpr one), ih]
        rfl
    | @first before after x e parts earlier failed =>
      subst parts
      -- the elements before the fault only add results that the fault drops again
      induction before with
      | nil =>
        rw [List.nil_append, List.mapM_cons, (isFault x e).mpr failed]
        rfl
      | cons b before ih =>
        obtain ⟨⟨y, one⟩, earlier⟩ := List.forall_mem_cons.mp earlier
        rw [List.cons_append, mapM_cons_of_ok ((isOk b y).mpr one), ih earlier]
        rfl

theorem Each.ok_iff {xs : List β} {ys : List γ} :
    Each passes fails xs (.ok ys) ↔ List.Forall₂ passes xs ys := by
  constructor
  · rintro ⟨given⟩
    exact given
  · exact .all

theorem mapM_eq_ok_iff {xs : List β} {ys : List γ} :
    xs.mapM f = .ok ys ↔ List.Forall₂ (fun x y => f x = .ok y) xs ys :=
  (mapM_eq_iff (fun _ _ => .rfl) (fun _ _ => .rfl) xs _).trans Each.ok_iff

theorem exists_forall₂_iff {xs : List β} :
    (∃ ys, List.Forall₂ passes xs ys) ↔ ∀ x ∈ xs, ∃ y, passes x y := by
  induction xs with
  | nil => simp
  | cons x xs ih =>
    rw [List.forall_mem_cons, ← ih]
    constructor
    · rintro ⟨_, _ | ⟨one, given⟩⟩
      exact ⟨⟨_, one⟩, _, given⟩
    · rintro ⟨⟨y, one⟩, ys, given⟩
      exact ⟨y :: ys, .cons one given⟩

theorem exists_of_mem_mapM {xs : List β} {ys : List γ} (made : xs.mapM f = .ok ys) {y : γ}
    (member : y ∈ ys) : ∃ x ∈ xs, f x = .ok y := by
  have given := mapM_eq_ok_iff.mp made
  obtain ⟨i, inside, rfl⟩ := List.mem_iff_getElem.mp member
  have before : i < xs.length := given.length_eq ▸ inside
  exact ⟨xs[i], List.getElem_mem before, given.get before inside⟩

theorem eq_map_of_mapM {g : β → γ} (each : ∀ x y, f x = .ok y → y = g x) {xs : List β}
    {ys : List γ} (made : xs.mapM f = .ok ys) : ys = xs.map g := by
  have given := (mapM_eq_ok_iff.mp made).imp fun x y made => (each x y made).symm
  have equal : List.Forall₂ (· = ·) (xs.map g) ys := List.forall₂_map_left_iff.mpr given
  exact (List.forall₂_eq_eq_eq ▸ equal).symm

theorem mapM_ok {g : β → γ} {xs : List β} (each : ∀ x ∈ xs, f x = .ok (g x)) :
    xs.mapM f = .ok (xs.map g) :=
  mapM_eq_ok_iff.mpr (List.forall₂_map_right_iff.mpr (List.forall₂_same.mpr each))

end Each

end TradeBars
