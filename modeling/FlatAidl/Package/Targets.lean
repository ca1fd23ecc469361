import FlatAidl.Catalogue.Basic
import FlatAidl.Name.Reading

/-!
The declarations that a list of target names asks for. A type's name asks for that type, a package's
for everything in it that is nested in nothing. Each declaration comes once, where it was first
asked for, and one that stands inside another declaration asked for is left to that one.
-/

namespace FlatAidl

inductive TargetError where
  | invalid (target : Text) (cause : NameError)
  | unknown (name : QualifiedName)
  | base (name : QualifiedName)
  | noDeclarations (package : QualifiedName)
deriving DecidableEq

namespace TargetError

def message : TargetError → Text
  | invalid target cause => Text.ofString "invalid target '" ++ target ++ Text.ofString "': " ++
      cause.message
  | unknown name => Text.ofString "unknown target " ++ name.text
  | base name => name.text ++
      Text.ofString " is the implicit base interface and has no translation"
  | noDeclarations package => Text.ofString "package " ++ package.text ++
      Text.ofString " has no declarations"

end TargetError

namespace Catalogue

def requested (c : Catalogue) (target : Text) : Except TargetError (List DeclId) :=
  match QualifiedName.read target with
  | .error cause => .error (.invalid target cause)
  | .ok name =>
    if name.isType then
      match c.lookup name with
      | none => .error (.unknown name)
      | some id => if id = base then .error (.base name) else .ok [id]
    else
      match c.ofPackage name with
      | [] => .error (.noDeclarations name)
      | ids => .ok ids

/-- A list with one more at the end, unless it is there already. -/
def addNew (seen : List DeclId) (id : DeclId) : List DeclId :=
  if seen.contains id then seen else seen ++ [id]

def requestedAll (c : Catalogue) (targets : List Text) : Except TargetError (List DeclId) :=
  (targets.mapM c.requested).map fun ids => ids.flatten.foldl addNew []

/-- Whether one of the declarations around a place is in a list; no more than `room` are looked
at. -/
def isInsideWithin (c : Catalogue) (seen : List DeclId) : Nat → DeclId → Bool
  | 0, _ => false
  | room + 1, id =>
    match c.parent? id with
    | none => false
    | some parent => seen.contains parent || c.isInsideWithin seen room parent

/-- Whether one of the declarations around a place is in a list. Nothing has more declarations
around it than there are. -/
def isInside (c : Catalogue) (seen : List DeclId) (id : DeclId) : Bool :=
  c.isInsideWithin seen c.size id

/-- The declarations to emit for targets, in the order in which they were first asked for. -/
def expandTargets (c : Catalogue) (targets : List Text) : Except TargetError (List DeclId) :=
  (c.requestedAll targets).map fun ids => ids.filter fun id => !c.isInside ids id

end Catalogue

end FlatAidl
