import FlatAidl.Text.Basic

/-!
Slash-separated paths. A path keeps the text it was written with; its meaning is its list of
components, in which repeated slashes and inner dots do not show. Two paths are the same place, and
stand in an order, by their components.
-/

namespace FlatAidl

abbrev Path := Text

namespace Path

inductive Component where
  | root
  | here
  | up
  | named (name : Text)
deriving DecidableEq

namespace Component

/-- The place of a kind of component in the order: the root, then the two dotted forms, then
names. -/
def rank : Component → Nat
  | root => 0
  | here => 1
  | up => 2
  | named _ => 3

/-- Components are ordered by their kind, and names among themselves by their characters. -/
def order : Component → Component → Ordering
  | named a, named b => compare a b
  | a, b => compare a.rank b.rank

def text : Component → Text
  | root => ['/']
  | here => ['.']
  | up => ['.', '.']
  | named name => name

end Component

/-- The component that a run between slashes stands for after the first one: nothing for an empty
run and for a dot. -/
def innerComponent? (run : Text) : Option Component :=
  if run = [] || run = ['.'] then none
  else if run = ['.', '.'] then some .up
  else some (.named run)

/-- The components of a path; a dot counts only where a path starts with it. -/
def components (p : Path) : List Component :=
  match Text.split '/' p with
  | [] => []
  | first :: rest =>
    let start :=
      if first = [] && !rest.isEmpty then [Component.root]
      else if first = ['.'] then [Component.here]
      else (innerComponent? first).toList
    start ++ rest.filterMap innerComponent?

/-- Whether two paths have the same components. -/
def same (p q : Path) : Bool :=
  decide (p.components = q.components)

/-- Whether a path comes before another one, component by component. -/
def before (p q : Path) : Bool :=
  List.compareLex Component.order p.components q.components == .lt

def isAbsolute (p : Path) : Bool :=
  p.head? == some '/'

/-- A path followed by a part: an absolute part replaces the path, and otherwise one slash stands
between them. -/
def push (p : Path) (part : Text) : Path :=
  if isAbsolute part then part
  else if p = [] || p.getLast? == some '/' then p ++ part
  else p ++ '/' :: part

def ofComponents (cs : List Component) : Path :=
  cs.foldl (fun p c => push p c.text) []

/-- The path without its last component; a path without components and the root have none. -/
def parent? (p : Path) : Option Path :=
  match p.components.getLast? with
  | none => none
  | some .root => none
  | some _ => some (ofComponents p.components.dropLast)

/-- What follows the last dot of a name, if something stands before that dot. -/
def extension? (name : Text) : Option Text :=
  match (Text.cut? '.' name.reverse) with
  | some (_, []) => none
  | some (tail, _ :: _) => if name = ['.', '.'] then none else some tail.reverse
  | none => none

end Path

end FlatAidl
