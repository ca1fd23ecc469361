import FlatAidl.Name.Basic

/-!
Reading qualified names. A text is cut at its first `@` and then at the first `::` after it, so the
parts are found before any of them is checked; the checks run from the package to the type path and
the first that fails decides the error.
-/

namespace FlatAidl

/-- What is wrong with a text that is no qualified name; each carries that text. -/
inductive NameError where
  | missingVersion (text : Text)
  | invalidPackage (text : Text)
  | invalidVersion (text : Text)
  | zeroMajor (text : Text)
  | invalidTypeName (text : Text)
deriving DecidableEq

namespace NameError

def subject : NameError → Text
  | missingVersion t | invalidPackage t | invalidVersion t | zeroMajor t | invalidTypeName t => t

def complaint : NameError → Text
  | missingVersion _ => Text.ofString "is missing an '@MAJOR.MINOR' version"
  | invalidPackage _ => Text.ofString "has an invalid package path"
  | invalidVersion _ => Text.ofString "has an invalid version"
  | zeroMajor _ => Text.ofString "has major version 0; major versions start at 1"
  | invalidTypeName _ => Text.ofString "has an invalid type name"

def message (e : NameError) : Text :=
  '\'' :: e.subject ++ '\'' :: ' ' :: e.complaint

end NameError

def isIdentifierStart (c : Char) : Bool :=
  c.isAlpha || c == '_'

def isIdentifierPart (c : Char) : Bool :=
  c.isAlphanum || c == '_'

def isIdentifier : Text → Bool
  | [] => false
  | c :: rest => isIdentifierStart c && rest.all isIdentifierPart

namespace Version

def bound : Nat := 0x100000000

/-- The version that two numerals with a dot between them denote. -/
def read? (t : Text) : Option Version := do
  let (major, minor) ← Text.cut? '.' t
  let major ← Decimal.read? bound major
  let minor ← Decimal.read? bound minor
  return ⟨major, minor⟩

end Version

namespace QualifiedName

/-- The version part and the type path of what follows the `@`. -/
def cutTypePath (t : Text) : Text × Option Text :=
  match Text.cutAt? (Text.ofString "::") t with
  | some (version, path) => (version, some path)
  | none => (t, none)

/-- The names of a type path, if all are identifiers; no path means no names. -/
def readNames? : Option Text → Option (List Text)
  | none => some []
  | some path =>
    let names := Text.split '.' path
    if names.all isIdentifier then some names else none

def read (t : Text) : Except NameError QualifiedName :=
  match Text.cut? '@' t with
  | none => .error (.missingVersion t)
  | some (package, rest) =>
    if !(Text.split '.' package).all isIdentifier then .error (.invalidPackage t)
    else match Version.read? (cutTypePath rest).1 with
      | none => .error (.invalidVersion t)
      | some version =>
        if version.major = 0 then .error (.zeroMajor t)
        else match readNames? (cutTypePath rest).2 with
          | none => .error (.invalidTypeName t)
          | some names => .ok ⟨package, version, names⟩

end QualifiedName

end FlatAidl
