import FlatAidl.Emission.Basic
import FlatAidl.FileTree.Basic

/-!
Making directories and files. A file is written below a root directory, with the directories on the
way to it; if it is refused, the directories made so far stay.
-/

namespace FlatAidl

namespace FileTree

/-- The runs of a path without the slashes at its end, in reverse. -/
def runsBackward (p : Path) : List Text :=
  (Text.split '/' p).reverse.dropWhile List.isEmpty

/-- Makes the directory that a path names; everything on the way to it has to exist. -/
def makeDirectory (t : FileTree) (p : Path) : Except FileError FileTree := do
  checkPath p
  match runsBackward p with
  | [] => .error .exists
  | last :: before =>
    let parent ← t.follow (t.origin p) before.reverse
    t.enter parent
    if last = ['.'] || last = ['.', '.'] then .error .exists
    else
      checkName last
      match t.entry? (parent ++ [last]) with
      | some _ => .error .exists
      | none => .ok (t.put (parent ++ [last]) .directory)

/-- Makes the directory that a path names, where one that exists will do. -/
def makeOrKeep (t : FileTree) (p : Path) : Except FileError FileTree :=
  match t.makeDirectory p with
  | .ok made => .ok made
  | .error e => if t.isDirectory p then .ok t else .error e

/-- Makes the directory that a path names with the directories on the way to it, of which no more
than `room` are missing. -/
def makeDirectoriesWithin : Nat → FileTree → Path → FileTree × Except FileError Unit
  | room, t, p =>
    if p = [] then (t, .ok ())
    else match t.makeDirectory p with
      | .ok made => (made, .ok ())
      | .error .notFound =>
        match room, p.parent? with
        | room + 1, some parent =>
          match makeDirectoriesWithin room t parent with
          | (t, .error e) => (t, .error e)
          | (t, .ok ()) =>
            match t.makeOrKeep p with
            | .ok made => (made, .ok ())
            | .error e => (t, .error e)
        | _, _ => (t, .error .noParent)
      | .error e => if t.isDirectory p then (t, .ok ()) else (t, .error e)

/-- Makes the directory that a path names with the directories on the way to it. -/
def makeDirectories (t : FileTree) (p : Path) : FileTree × Except FileError Unit :=
  makeDirectoriesWithin (p.components.length + 1) t p

/-- Writes a file where a path leads; its directory has to exist. -/
def writeFile (t : FileTree) (p : Path) (content : Bytes) : Except FileError FileTree := do
  let place ← t.locate p
  t.enter place.dropLast
  match t.entry? place with
  | some .directory => .error .isADirectory
  | _ => .ok (t.put place (.file content))

/-- Writes a file below a root, with the directories on the way to it. -/
def writeBelow (root : Path) (t : FileTree) (p : Path) (text : Text) :
    FileTree × Except FileError Unit :=
  let full := root.push p
  let made := match full.parent? with
    | some parent => t.makeDirectories parent
    | none => (t, .ok ())
  match made with
  | (t, .error e) => (t, .error e)
  | (t, .ok ()) =>
    match t.writeFile full (Utf8.encode text) with
    | .ok t => (t, .ok ())
    | .error e => (t, .error e)

def output (root : Path) : Output FileTree where
  put t p text :=
    match writeBelow root t p text with
    | (t, .ok ()) => (t, none)
    | (t, .error e) => (t, some e.message)

end FileTree

end FlatAidl
