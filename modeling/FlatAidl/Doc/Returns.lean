import FlatAidl.Doc.Comment

/-!
Comments after a change of the results they describe. A line `@return NAME …` loses the name where
the result became the return value, is marked where the result was dropped, and turns into
`@param out NAME …` where the result is neither. The lines are then read again as a new comment.
-/

namespace FlatAidl

/-- What became of a result that is no out parameter. -/
inductive ResultFate where
  | returned
  | dropped
deriving DecidableEq

/-- A result's name and what became of the result. -/
structure ResultChange where
  result : Text
  fate : ResultFate
deriving DecidableEq

namespace ResultChange

def find? (changes : List ResultChange) (name : Text) : Option ResultFate :=
  (changes.find? fun change => change.result == name).map ResultChange.fate

end ResultChange

namespace DocComment

def returnTag : Text :=
  Text.ofString "@return"

/-- The remark above the description of a dropped result. -/
def droppedRemark : Text :=
  Text.ofString "The following return was removed\n"

/-- The words of a result's description, from its name on, by what became of the result. -/
def describeResult (fate : Option ResultFate) (name : Text) (rest : List Text) : List Text :=
  match fate with
  | some .returned => returnTag :: rest
  | some .dropped => droppedRemark :: returnTag :: name :: rest
  | none => Text.ofString "@param out" :: name :: rest

/-- A comment's line after the changes; a line that describes no result stays as it is. -/
def updateLine (changes : List ResultChange) (line : Text) : Text :=
  match Text.words line with
  | tag :: name :: rest =>
    if tag = returnTag then
      Text.join [' '] (describeResult (ResultChange.find? changes name) name rest)
    else line
  | _ => line

/-- The comment after the changes, as text that no author wrote. -/
def update (d : DocComment) (changes : List ResultChange) : DocComment :=
  read (Text.join ['\n'] (d.lines.map (updateLine changes))) Location.generated

end DocComment

end FlatAidl
