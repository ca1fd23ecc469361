import FlatAidl.Path.Basic
import FlatAidl.Text.Utf8

/-!
Files and directories. A place is the list of the names on the way to it from the root; the root is
always a directory. A path is followed run by run between its slashes, and every place that it goes
through has to be a directory, also in front of a dot and of a slash at the end.
-/

namespace FlatAidl

inductive Entry where
  | directory
  | file (content : Bytes)
deriving DecidableEq

/-- A place by the names on the way to it. -/
abbrev Place := List Text

/-- Entries by place, and the place that relative paths start from. -/
structure FileTree where
  entries : List (Place × Entry)
  current : Place
deriving DecidableEq

inductive FileError where
  | notFound
  | exists
  | notADirectory
  | isADirectory
  | nameTooLong
  | nulByte
  | invalidUtf8
  | noParent
deriving DecidableEq

namespace FileError

def message : FileError → Text
  | notFound => Text.ofString "No such file or directory (os error 2)"
  | «exists» => Text.ofString "File exists (os error 17)"
  | notADirectory => Text.ofString "Not a directory (os error 20)"
  | isADirectory => Text.ofString "Is a directory (os error 21)"
  | nameTooLong => Text.ofString "File name too long (os error 36)"
  | nulByte => Text.ofString "file name contained an unexpected NUL byte"
  | invalidUtf8 => Text.ofString "stream did not contain valid UTF-8"
  | noParent => Text.ofString "failed to create whole tree"

end FileError

namespace FileTree

/-- No files; relative paths start from the root. -/
def empty : FileTree :=
  ⟨[], []⟩

def entry? (t : FileTree) (p : Place) : Option Entry :=
  if p = [] then some .directory
  else (t.entries.find? fun e => decide (e.1 = p)).map Prod.snd

def put (t : FileTree) (p : Place) (e : Entry) : FileTree :=
  if t.entries.any fun old => decide (old.1 = p) then
    { t with entries := t.entries.map fun old => if old.1 = p then (p, e) else old }
  else { t with entries := t.entries ++ [(p, e)] }

/-- Succeeds if a directory stands at a place. -/
def enter (t : FileTree) (p : Place) : Except FileError Unit :=
  match t.entry? p with
  | some .directory => .ok ()
  | some (.file _) => .error .notADirectory
  | none => .error .notFound

def checkName (name : Text) : Except FileError Unit :=
  if (Utf8.encode name).length ≤ 255 then .ok () else .error .nameTooLong

/-- Succeeds if a path is not empty, has no character of code 0 and takes less than 4096 bytes. -/
def checkPath (p : Path) : Except FileError Unit :=
  if p = [] then .error .notFound
  else if p.contains '\x00' then .error .nulByte
  else if (Utf8.encode p).length < 4096 then .ok ()
  else .error .nameTooLong

/-- The place that runs between slashes lead to from a place. -/
def follow (t : FileTree) : Place → List Text → Except FileError Place
  | p, [] => .ok p
  | p, run :: rest => do
    t.enter p
    if run = [] || run = ['.'] then t.follow p rest
    else if run = ['.', '.'] then t.follow p.dropLast rest
    else
      checkName run
      t.follow (p ++ [run]) rest

def origin (t : FileTree) (p : Path) : Place :=
  if p.isAbsolute then [] else t.current

def locate (t : FileTree) (p : Path) : Except FileError Place := do
  checkPath p
  t.follow (t.origin p) (Text.split '/' p)

def lookup (t : FileTree) (p : Path) : Except FileError Entry := do
  match t.entry? (← t.locate p) with
  | some e => .ok e
  | none => .error .notFound

def isDirectory (t : FileTree) (p : Path) : Bool :=
  match t.lookup p with
  | .ok .directory => true
  | _ => false

def read (t : FileTree) (p : Path) : Except FileError Bytes := do
  match ← t.lookup p with
  | .file content => .ok content
  | .directory => .error .isADirectory

def readText (t : FileTree) (p : Path) : Except FileError Text := do
  match Utf8.decode? (← t.read p) with
  | some text => .ok text
  | none => .error .invalidUtf8

/-- The files below the directory that a path leads to, each with the names on the way to it, in
the order of a walk that visits the entries of a directory by name. -/
def filesBelow (t : FileTree) (p : Path) : List (List Text × Bytes) :=
  match t.locate p with
  | .error _ => []
  | .ok place =>
    (t.entries.filterMap fun e =>
      match e.2 with
      | .directory => none
      | .file content =>
        if place.isPrefixOf e.1 && decide (place.length < e.1.length) then
          some (e.1.drop place.length, content)
        else none).mergeSort fun a b => (compare a.1 b.1).isLE

end FileTree

end FlatAidl
