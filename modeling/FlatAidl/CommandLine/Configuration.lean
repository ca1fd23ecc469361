import FlatAidl.CommandLine.Arguments
import FlatAidl.FileTree.Basic
import FlatAidl.Json.Record
import FlatAidl.Rendering.File

/-!
The options of a run. The configuration file goes over the standard options and the command line
over both; a width of zero is refused wherever it comes from.
-/

namespace FlatAidl

structure Configuration where
  maxLineLength : Option Nat
  headerComment : Option Text
  indentWidth : Option Nat
deriving DecidableEq

inductive OptionsError where
  | unreadable (path : Path) (cause : FileError)
  | invalid (path : Path)
  | zeroLineLength
  | zeroIndentWidth
deriving DecidableEq

namespace OptionsError

/-- What is said about a configuration that cannot be read as one. -/
def malformed : Text :=
  Text.ofString "failed to parse config JSON"

def message : OptionsError → Text
  | unreadable path cause => Text.ofString "failed to read config: " ++ path ++
      Text.ofString ": " ++ cause.message
  | invalid path => Text.ofString "invalid config: " ++ path ++ Text.ofString ": " ++ malformed
  | zeroLineLength => Text.ofString "maxLineLength must be greater than zero"
  | zeroIndentWidth => Text.ofString "indentWidth must be greater than zero"

end OptionsError

namespace Configuration

def names : List Text :=
  ["maxLineLength", "headerComment", "indentWidth"].map Text.ofString

/-- Whether a value has no other members than the settings. -/
def hasKnownMembers : Json → Bool
  | .object members => members.all fun m => names.any fun name => m.1 == some name
  | _ => true

def ofJson? (v : Json) : Option Configuration := do
  if !hasKnownMembers v then none
  else match ← Json.fields? names v with
    | [maxLineLength, headerComment, indentWidth] =>
      return ⟨← Json.optional? Json.natural? maxLineLength,
        ← Json.optional? Json.text? headerComment, ← Json.optional? Json.natural? indentWidth⟩
    | _ => none

def read? (t : Text) : Option Configuration :=
  (Json.read? t).bind ofJson?

def apply (c : Configuration) (o : Options) : Options :=
  ⟨c.maxLineLength.getD o.maxLineLength, c.headerComment.getD o.headerComment,
    c.indentWidth.getD o.indentWidth⟩

def ofArguments (a : Arguments) : Configuration :=
  ⟨a.maxLineLength, a.headerComment, a.indentWidth⟩

def load (t : FileTree) (p : Path) : Except OptionsError Configuration :=
  match t.readText p with
  | .error cause => .error (.unreadable p cause)
  | .ok text =>
    match read? text with
    | some c => .ok c
    | none => .error (.invalid p)

end Configuration

namespace Options

/-- The standard options with those changed that the configuration file sets, if there is one. -/
def configured (t : FileTree) (a : Arguments) : Except OptionsError Options :=
  match a.config with
  | none => .ok standard
  | some p => (Configuration.load t p).map fun c => c.apply standard

def resolve (t : FileTree) (a : Arguments) : Except OptionsError Options := do
  let o := (Configuration.ofArguments a).apply (← configured t a)
  if o.maxLineLength = 0 then .error .zeroLineLength
  else if o.indentWidth = 0 then .error .zeroIndentWidth
  else .ok o

end Options

end FlatAidl
