import TradeBars.Json.Token

/-! Reading one JSON document. Tokens drive a pushdown machine whose stack holds
the containers that are still open, so nesting is bounded by the text alone. -/
namespace TradeBars.Json

/-- An open container that waits for a value: what it holds so far, newest first. -/
inductive Frame where
  | array (items : List Json)
  | object (members : List (Text × Json)) (key : Text)

/-- What the machine expects next. -/
inductive State where
  /-- A value. -/
  | value (stack : List Frame)
  /-- The first item of an array, or its end. -/
  | firstItem (stack : List Frame)
  /-- A comma, or the end of an array. -/
  | afterItem (items : List Json) (stack : List Frame)
  /-- The first key of an object, or its end. -/
  | firstKey (stack : List Frame)
  /-- A key. -/
  | nextKey (members : List (Text × Json)) (stack : List Frame)
  /-- The colon after a key. -/
  | colon (members : List (Text × Json)) (key : Text) (stack : List Frame)
  /-- A comma, or the end of an object. -/
  | afterMember (members : List (Text × Json)) (stack : List Frame)
  /-- Nothing: the document is complete. -/
  | complete (v : Json)

/-- Hands a complete value to the innermost open container. -/
def State.put (v : Json) : List Frame → State
  | [] => .complete v
  | .array items :: stack => .afterItem (v :: items) stack
  | .object members key :: stack => .afterMember ((key, v) :: members) stack

/-- The object of the given members, newest first. -/
def ofMembers (members : List (Text × Json)) : Json :=
  match members.reverse.mapM fun (key, v) => key.map (·, v) with
  | some members => .obj members
  | none => .unpaired

def State.begin? (stack : List Frame) : Token → Option State
  | .scalar v => some (.put v stack)
  | .text t => some (.put ((t.map Json.str).getD .unpaired) stack)
  | .openArray => some (.firstItem stack)
  | .openObject => some (.firstKey stack)
  | _ => none

def State.next? : State → Token → Option State
  | .value stack, t => begin? stack t
  | .firstItem stack, .closeArray => some (.put (.arr []) stack)
  | .firstItem stack, t => begin? (.array [] :: stack) t
  | .afterItem items stack, .comma => some (.value (.array items :: stack))
  | .afterItem items stack, .closeArray => some (.put (.arr items.reverse) stack)
  | .firstKey stack, .closeObject => some (.put (.obj []) stack)
  | .firstKey stack, .text key => some (.colon [] key stack)
  | .nextKey members stack, .text key => some (.colon members key stack)
  | .colon members key stack, .colon => some (.value (.object members key :: stack))
  | .afterMember members stack, .comma => some (.nextKey members stack)
  | .afterMember members stack, .closeObject => some (.put (ofMembers members) stack)
  | _, _ => none

/-- The document that the whole of a text spells. -/
def read? (text : String) : Option Json := do
  let tokens ← tokens? text.toList
  match ← tokens.foldlM State.next? (.value []) with
  | .complete v => some v
  | _ => none

end TradeBars.Json
