import TradeBars.Json.Value

/-! Records in JSON, as an object by field name or as an array by position. Keys
that name no field are ignored, a field that occurs twice is refused. -/
namespace TradeBars.Json

/-- The member of a given name: `some none` if absent, `none` if there are several. -/
def member? (members : List (String × Json)) (name : String) : Option (Option Json) :=
  match members.filter (·.1 == name) with
  | [] => some none
  | [(_, v)] => some (some v)
  | _ => none

/-- The values of the named fields in order. An array gives all of them by
position, save that the last `droppable` ones may be left off. -/
def fields? (names : List String) (droppable : Nat) : Json → Option (List (Option Json))
  | .obj members => names.mapM (member? members)
  | .arr items =>
    if items.length ≤ names.length ∧ names.length ≤ items.length + droppable then
      some (items.map some ++ List.replicate (names.length - items.length) none)
    else none
  | _ => none

/-- A field that must be there. -/
def required {α : Type} (decode : Json → Option α) (field : Option Json) : Option α :=
  field.bind decode

/-- A field that may be absent or null. -/
def nullable {α : Type} (decode : Json → Option α) : Option Json → Option (Option α)
  | none | some .null => some none
  | some v => (decode v).map some

/-- A field that has a default where it is absent; null is not absence. -/
def defaulted {α : Type} (fallback : α) (decode : Json → Option α) : Option Json → Option α
  | none => some fallback
  | some v => decode v

/-- An array with items of one kind. -/
def listOf? {α : Type} (decode : Json → Option α) : Json → Option (List α)
  | .arr items => items.mapM decode
  | _ => none

/-- The name of one of several alternatives: a string, or an object with that one
key and null. -/
def alternative? : Json → Option String
  | .str name => some name
  | .obj [(name, .null)] => some name
  | _ => none

end TradeBars.Json
