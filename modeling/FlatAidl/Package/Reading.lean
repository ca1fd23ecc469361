import FlatAidl.Json.Record
import FlatAidl.Package.Model

/-!
Reading package models from JSON. Members that a record does not know are passed over. At the top
of the file they may hold anything; below it they too have to be sound: nested no deeper than the
limit, with strings that are texts and numbers that a double holds.
-/

namespace FlatAidl

namespace PackageModel

/-- Arrays and objects stand in each other at most this deep. -/
def depthLimit : Nat := 127

/-- Whether a value that stands `outer` levels deep is sound. -/
def isSound (outer : Nat) (v : Json) : Bool :=
  decide (outer + v.depth ≤ depthLimit) && v.allLeaves Option.isSome Json.isFinite

def fieldNames (names : List String) : List Text :=
  names.map Text.ofString

def readParam? (v : Json) : Option ParamModel := do
  match ← Json.fields? (fieldNames ["name", "type"]) v with
  | [name, type] => return ⟨← Json.required? name, ← Json.required? type⟩
  | _ => none

def readMethod? (v : Json) : Option MethodModel := do
  match ← Json.fields? (fieldNames ["name", "args", "results", "oneway", "doc"]) v with
  | [name, args, results, oneway, doc] =>
    return ⟨← Json.required? name, ← Json.listOf? readParam? args,
      ← Json.listOf? readParam? results, ← Json.flag? oneway, ← Json.optional? Json.text? doc⟩
  | _ => none

def readField? (v : Json) : Option FieldModel := do
  match ← Json.fields? (fieldNames ["name", "type", "doc"]) v with
  | [name, type, doc] =>
    return ⟨← Json.required? name, ← Json.required? type, ← Json.optional? Json.text? doc⟩
  | _ => none

inductive Kind where
  | interface
  | struct
  | union
deriving DecidableEq

/-- The kind that a value denotes: by its name, or, in a nested declaration, also by its number. -/
def readKind? (nested : Bool) (v : Json) : Option Kind :=
  match v with
  | .string (some t) =>
    if t = Text.ofString "interface" then some .interface
    else if t = Text.ofString "struct" then some .struct
    else if t = Text.ofString "union" then some .union
    else none
  | .number _ =>
    if nested then
      match v.natural? with
      | some 0 => some .interface
      | some 1 => some .struct
      | some 2 => some .union
      | _ => none
    else none
  | _ => none

def kindName : Text :=
  Text.ofString "kind"

/-- The value of a declaration's kind, and the rest of the declaration. -/
def splitKind? : Json → Option (Json × Json)
  | .object members =>
    match Json.valuesOf kindName members with
    | [kind] => some (kind, .object (members.filter fun m => m.1 != some kindName))
    | _ => none
  | .array (kind :: rest) => some (kind, .array rest)
  | _ => none

/-- The declaration that a value denotes. Declarations nested deeper than `room` are refused. -/
def readDecl? (nested : Bool) : Nat → Json → Option DeclModel
  | 0, _ => none
  | room + 1, v => do
    let (kind, rest) ← splitKind? v
    match ← readKind? nested kind with
    | .interface =>
      match ← Json.fields? (fieldNames ["name", "extends", "doc", "methods", "types"]) rest with
      | [name, super, doc, methods, types] =>
        return .interface (← Json.required? name) (← Json.optional? Json.text? super)
          (← Json.optional? Json.text? doc) (← Json.listOf? readMethod? methods)
          (← Json.listOf? (readDecl? true room) types)
      | _ => none
    | .struct => readCompound? .struct (readDecl? true room) rest
    | .union => readCompound? .union (readDecl? true room) rest
where
  /-- The structured type that a value denotes. -/
  readCompound? (kind : CompoundKind) (readType : Json → Option DeclModel) (rest : Json) :
      Option DeclModel := do
    match ← Json.fields? (fieldNames ["name", "doc", "fields", "types"]) rest with
    | [name, doc, fields, types] =>
      return .compound kind (← Json.required? name) (← Json.optional? Json.text? doc)
        (← Json.listOf? readField? fields) (← Json.listOf? readType types)
    | _ => none

def memberNames : List Text :=
  fieldNames ["package", "declarations"]

/-- Whether what a package's value holds is sound; members that are passed over need not be. -/
def isSoundPackage : Json → Bool
  | .object members =>
    members.all fun m =>
      m.1.isSome && (isSound 1 m.2 || !memberNames.any fun name => m.1 == some name)
  | v => isSound 0 v

def ofJson? (v : Json) : Option PackageModel := do
  if !isSoundPackage v then none
  else match ← Json.fields? memberNames v with
    | [package, declarations] =>
      return ⟨← Json.required? package, ← Json.listOf? (readDecl? false v.depth) declarations⟩
    | _ => none

def read? (t : Text) : Option PackageModel :=
  (Json.read? t).bind ofJson?

end PackageModel

end FlatAidl
