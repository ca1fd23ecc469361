import FlatAidl.Json.Reading

/-!
Records in JSON. A record with fields in a known order is written as an object or as an array of
its fields; an array may be shorter than the record and not longer, and an object may give each
field once. What a missing field means is for the record to say.
-/

namespace FlatAidl

namespace Json

def valuesOf (name : Text) (members : List (Option Text × Json)) : List Json :=
  (members.filter fun m => m.1 == some name).map Prod.snd

/-- The value of the member with a name: an error if there are several. -/
def member? (members : List (Option Text × Json)) (name : Text) : Option (Option Json) :=
  match valuesOf name members with
  | [] => some none
  | [value] => some (some value)
  | _ => none

/-- The fields of a record given as an object, in the order of their names. -/
def fieldsOfMembers? (names : List Text) (members : List (Option Text × Json)) :
    Option (List (Option Json)) :=
  names.mapM (member? members)

def fieldsOfItems? (names : List Text) (items : List Json) : Option (List (Option Json)) :=
  if names.length < items.length then none
  else some (items.map some ++ List.replicate (names.length - items.length) none)

def fields? (names : List Text) : Json → Option (List (Option Json))
  | .object members => fieldsOfMembers? names members
  | .array items => fieldsOfItems? names items
  | _ => none

def required? (field : Option Json) : Option Text :=
  field.bind text?

/-- A field that is absent, null, or as `read` has it. -/
def optional? {α : Type} (read : Json → Option α) : Option Json → Option (Option α)
  | none => some none
  | some .null => some none
  | some value => (read value).map some

/-- A field that is a list, empty if it is absent. -/
def listOf? {α : Type} (read : Json → Option α) : Option Json → Option (List α)
  | none => some []
  | some (.array items) => items.mapM read
  | some _ => none

/-- A field that is true or false, false if it is absent. -/
def flag? : Option Json → Option Bool
  | none => some false
  | some (.bool b) => some b
  | some _ => none

end Json

end FlatAidl
