import FlatAidl.Text.Basic

/-!
Where diagnostics are configured. Two variables may hold the directives, of which the program's own
goes before the general one; without either there are no diagnostics. A third variable chooses the
form of the records.
-/

namespace FlatAidl

inductive LogFormat where
  | text
  | tree
  | json
deriving DecidableEq

namespace LogFormat

/-- The form that a word stands for, in any case of its letters; any other word means plain text.
ASCII case is enough: no other character has a lower case form among the letters of these words. -/
def read (word : Text) : LogFormat :=
  let lowered := word.map Char.toLower
  if lowered = Text.ofString "tree" then tree
  else if lowered = Text.ofString "json" then json
  else text

end LogFormat

/-- The directives for the filter and the form of the records. -/
structure LogSettings where
  directives : Text
  format : LogFormat
deriving DecidableEq

namespace LogSettings

/-- The variable for this program's directives. -/
def ownVariable : Text :=
  Text.ofString "HIDL2AIDL_LOG"

/-- The variable for the directives of programs in general. -/
def commonVariable : Text :=
  Text.ofString "RUST_LOG"

/-- The variable for the form of the records. -/
def formatVariable : Text :=
  Text.ofString "HIDL2AIDL_LOG_FORMAT"

/-- The settings that the variables of an environment make. -/
def ofEnvironment (lookup : Text → Option Text) : Option LogSettings :=
  ((lookup ownVariable).or (lookup commonVariable)).map fun directives =>
    ⟨directives, ((lookup formatVariable).map LogFormat.read).getD .text⟩

end LogSettings

end FlatAidl
