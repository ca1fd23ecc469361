import FlatAidl.Text.Blank
import FlatAidl.Text.Decimal

/-!
Documentation comments: lines of text and the place they came from. Reading strips what belongs to
the comment block (the margin, one star and one blank after it); writing puts a block around the
lines again.
-/

namespace FlatAidl

structure Location where
  file : Text
  line : Nat
  column : Nat
deriving DecidableEq

namespace Location

def unknown : Location := ⟨[], 0, 0⟩

/-- The file name that stands for text no author wrote. -/
def generatedFile : Text :=
  Text.ofString "<generated>"

def generated : Location :=
  ⟨generatedFile, 0, 0⟩

def isGenerated (l : Location) : Bool :=
  decide (l.file = generatedFile)

def text (l : Location) : Text :=
  l.file ++ ':' :: Decimal.write l.line ++ ':' :: Decimal.write l.column

end Location

/-- The lines of a comment, without the marks of the comment block. -/
structure DocComment where
  lines : List Text
  location : Location
deriving DecidableEq

namespace DocComment

/-- A text without its first character, if that is `c`. -/
def dropOne (c : Char) : Text → Text
  | [] => []
  | x :: rest => if x = c then rest else x :: rest

/-- A line of a comment block without its margin, one star, one space after it, and the blanks at
its end. -/
def bareLine (line : Text) : Text :=
  Text.trimEnd (dropOne ' ' (dropOne '*' (Text.trimStart line)))

/-- The lines of a comment's text, from the first that is not empty. -/
def readLines (t : Text) : List Text :=
  ((Text.split '\n' (Text.trim t)).map bareLine).dropWhile List.isEmpty

def read (t : Text) (l : Location) : DocComment :=
  ⟨readLines t, l⟩

def blockLine (line : Text) : Text :=
  if line.isEmpty then Text.ofString " *" else Text.ofString " * " ++ line

def block (d : DocComment) : List Text :=
  Text.ofString "/**" :: (d.lines.map blockLine ++ [Text.ofString " */"])

end DocComment

end FlatAidl
