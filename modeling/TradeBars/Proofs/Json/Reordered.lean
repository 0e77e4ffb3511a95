import Mathlib.Data.List.Forall2
import TradeBars.Json.Record

/-! The order of the members in JSON objects. A record is read by the names of its fields, so that
the order makes no difference to it. -/
namespace TradeBars.Json

/-- Two members of one key, whose values are related. -/
inductive SameKey {β γ : Type} (related : β → γ → Prop) : String × β → String × γ → Prop where
  | value {key : String} {x : β} {y : γ} : related x y → SameKey related (key, x) (key, y)

/-- The same document, but for the order of members. -/
inductive Reordered : Json → Json → Prop where
  | refl (v : Json) : Reordered v v
  | arr {items items' : List Json} : List.Forall₂ Reordered items items' →
      Reordered (.arr items) (.arr items')
  | obj {members between members' : List (String × Json)} :
      List.Forall₂ (SameKey Reordered) members between → between.Perm members' →
      Reordered (.obj members) (.obj members')

/-- A reader of values to which the order of members makes no difference. -/
def Unordered {α : Type} (decode : Json → Option α) : Prop :=
  ∀ v w, Reordered v w → decode v = decode w

section Fields

variable {members members' : List (String × Json)}

theorem member?_of_perm (same : members.Perm members') (name : String) :
    member? members name = member? members' name := by
  have same : (members.filter (·.1 == name)).Perm (members'.filter (·.1 == name)) := same.filter _
  unfold member?
  generalize members.filter (·.1 == name) = found at same
  generalize members'.filter (·.1 == name) = found' at same
  match found with
  | [] => rw [List.nil_perm.mp same]
  | [m] => rw [List.singleton_perm.mp same]
  | _ :: _ :: _ =>
    match found', same.length_eq with
    | _ :: _ :: _, _ => rfl

theorem member?_of_forall₂ (each : List.Forall₂ (SameKey Reordered) members members')
    (name : String) :
    Option.Rel (Option.Rel Reordered) (member? members name) (member? members' name) := by
  have each : List.Forall₂ (SameKey Reordered)
      (members.filter (·.1 == name)) (members'.filter (·.1 == name)) := by
    refine List.rel_filter ?_ each
    rintro _ _ ⟨-⟩
    rfl
  unfold member?
  generalize members.filter (·.1 == name) = found at each
  generalize members'.filter (·.1 == name) = found' at each
  match each with
  | .nil => exact .some .none
  | .cons (.value same) .nil => exact .some (.some same)
  | .cons _ (.cons _ _) => exact .none

theorem mapM_rel {β γ : Type} {related : β → γ → Prop} {f : String → Option β}
    {g : String → Option γ} (each : ∀ name, Option.Rel related (f name) (g name))
    (names : List String) :
    Option.Rel (List.Forall₂ related) (names.mapM f) (names.mapM g) := by
  induction names with
  | nil => exact .some .nil
  | cons name names ih =>
    rw [List.mapM_cons, List.mapM_cons]
    match f name, g name, each name with
    | _, _, .none => exact .none
    | _, _, .some one =>
      match names.mapM f, names.mapM g, ih with
      | _, _, .none => exact .none
      | _, _, .some others => exact .some (.cons one others)

/-- The same fields are found, with values that are reordered. -/
theorem fields?_of_reordered {v w : Json} (same : Reordered v w) (names : List String)
    (droppable : Nat) :
    Option.Rel (List.Forall₂ (Option.Rel Reordered)) (fields? names droppable v)
      (fields? names droppable w) := by
  cases same with
  | refl =>
    cases fields? names droppable v with
    | none => exact .none
    | some fields =>
      refine .some (List.forall₂_same.mpr fun field _ => ?_)
      cases field with
      | none => exact .none
      | some value => exact .some (.refl value)
  | arr each =>
    simp only [fields?, each.length_eq]
    split
    · refine .some (List.rel_append ?_ (List.forall₂_same.mpr fun _ missing => ?_))
      · exact List.rel_map (fun _ _ one => .some one) each
      · rw [List.eq_of_mem_replicate missing]
        exact .none
    · exact .none
  | obj each moved =>
    simp only [fields?, ← funext (member?_of_perm moved)]
    exact mapM_rel (member?_of_forall₂ each) names

end Fields

section Decoders

variable {α : Type} {decode : Json → Option α} {field field' : Option Json}

theorem unordered_string? : Unordered string? := by
  rintro _ _ (_ | _ | _) <;> rfl

theorem unordered_intIn? (low high : Int) : Unordered (intIn? low high) := by
  rintro _ _ (_ | _ | _) <;> rfl

theorem unordered_uint64? : Unordered uint64? := by
  intro v w same
  rw [uint64?, uint64?, unordered_intIn? _ _ v w same]

theorem unordered_uint32? : Unordered uint32? := by
  intro v w same
  rw [uint32?, uint32?, unordered_intIn? _ _ v w same]

theorem alternative?_of_several (m n : String × Json) (members : List (String × Json)) :
    alternative? (.obj (m :: n :: members)) = none := by
  simp [alternative?]

theorem unordered_alternative? : Unordered alternative? := by
  rintro _ _ (_ | _ | @⟨members, between, members', each, moved⟩)
  · rfl
  · rfl
  · match each with
    | .nil => rw [List.nil_perm.mp moved]
    | .cons (.value same) .nil =>
      rw [← List.singleton_perm.mp moved]
      cases same <;> rfl
    | .cons _ (.cons _ _) =>
      match members', moved.length_eq with
      | _ :: _ :: _, _ => rw [alternative?_of_several, alternative?_of_several]

theorem Unordered.required (unordered : Unordered decode)
    (same : Option.Rel Reordered field field') :
    Json.required decode field = Json.required decode field' := by
  cases same with
  | none => rfl
  | some same => exact unordered _ _ same

theorem Unordered.defaulted (unordered : Unordered decode) (fallback : α)
    (same : Option.Rel Reordered field field') :
    Json.defaulted fallback decode field = Json.defaulted fallback decode field' := by
  cases same with
  | none => rfl
  | some same => exact unordered _ _ same

theorem Unordered.nullable (unordered : Unordered decode)
    (same : Option.Rel Reordered field field') :
    Json.nullable decode field = Json.nullable decode field' := by
  cases same with
  | none => rfl
  | some same =>
    cases same with
    | refl => rfl
    | arr each => exact congrArg (Option.map some) (unordered _ _ (.arr each))
    | obj each moved => exact congrArg (Option.map some) (unordered _ _ (.obj each moved))

/-- What is made of the fields of a record. -/
theorem Unordered.record {names : List String} {droppable : Nat}
    {build : List (Option Json) → Option α}
    (each : ∀ fields fields', List.Forall₂ (Option.Rel Reordered) fields fields' →
      build fields = build fields') :
    Unordered fun v => v.fields? names droppable >>= build := by
  intro v w same
  change fields? names droppable v >>= build = fields? names droppable w >>= build
  match fields? names droppable v, fields? names droppable w,
    fields?_of_reordered same names droppable with
  | _, _, .none => rfl
  | _, _, .some found => exact each _ _ found

end Decoders

end TradeBars.Json
