import FlatAidl.Text.Basic

/-!
Lines of bounded width made of groups that are never split. Between two groups stands one space, or
a line break and an indent where the next group would not fit. Text outside of groups is appended
wherever the line stands. A group that is wider than a line stands alone on its line.
-/

namespace FlatAidl

/-- The measures of a layout: how far a line may go, where the first character of a line stands, and
how far further lines are indented. -/
structure LineShape where
  width : Nat
  start : Nat
  indent : Nat
deriving DecidableEq

namespace LineShape

/-- The indent of further lines where none is given. -/
def defaultIndent : Nat := 8

end LineShape

/-- A line break in front of a group: the column that the line had reached, the group's width and
the width that a line may have. -/
structure LineBreak where
  column : Nat
  width : Nat
  limit : Nat
deriving DecidableEq

inductive LayoutPart where
  | text (t : Text)
  | group (t : Text)
deriving DecidableEq

/-- A layout under way: the finished lines, the current line, the number of groups so far, and the
breaks that were made. -/
structure Layout where
  done : List Text
  current : Text
  groups : Nat
  breaks : List LineBreak
deriving DecidableEq

namespace Layout

def empty : Layout := ⟨[], [], 0, []⟩

def column (s : LineShape) (l : Layout) : Nat :=
  s.start + l.current.length

def fits (s : LineShape) (l : Layout) (group : Text) : Bool :=
  decide (l.column s + 1 + group.length ≤ s.width)

def addGroup (s : LineShape) (l : Layout) (group : Text) : Layout :=
  if l.groups = 0 then { l with current := l.current ++ group, groups := 1 }
  else if l.fits s group then
    { l with current := l.current ++ ' ' :: group, groups := l.groups + 1 }
  else
    ⟨l.done ++ [l.current], List.replicate s.indent ' ' ++ group, l.groups + 1,
      l.breaks ++ [⟨l.column s, group.length, s.width⟩]⟩

def add (s : LineShape) (l : Layout) : LayoutPart → Layout
  | .text t => { l with current := l.current ++ t }
  | .group t => l.addGroup s t

def ofParts (s : LineShape) (parts : List LayoutPart) : Layout :=
  parts.foldl (add s) empty

/-- The lines of a layout; an empty last line counts only if it is the first. -/
def lines (l : Layout) : List Text :=
  if l.current.isEmpty && !l.done.isEmpty then l.done else l.done ++ [l.current]

end Layout

end FlatAidl
