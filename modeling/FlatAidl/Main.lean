import FlatAidl.Run.Basic

/-!
The command line program. It reads from the disk what the arguments refer to, carries the run out on
that picture of the disk, and writes back what the run changed.
-/

namespace FlatAidl

namespace Program

/-- The place that a path names when dots are taken at their word. -/
def placeOf (current : Place) (p : Path) : Place :=
  (Text.split '/' p).foldl (fun place run =>
    if run = [] || run = ['.'] then place
    else if run = ['.', '.'] then place.dropLast
    else place ++ [run]) (if p.isAbsolute then [] else current)

/-- The path on the disk of a place. -/
def diskPath (place : Place) : String :=
  String.ofList ('/' :: Text.join ['/'] place)

/-- Adds what stands at a place of the disk; below a directory everything if `deep` holds. -/
partial def addEntry (deep : Bool) (t : FileTree) (place : Place) : IO FileTree := do
  let path := (← IO.currentDir) / diskPath place
  if ← path.isDir then
    let mut t := t.put place .directory
    if deep then
      for entry in ← path.readDir do
        t ← addEntry deep t (place ++ [entry.fileName.toList])
    return t
  else if ← path.pathExists then
    return t.put place (.file (← IO.FS.readBinFile path).toList)
  else return t

/-- Adds what a path refers to, and what stands on the way to it. -/
def addPath (t : FileTree) (p : Path) : IO FileTree := do
  let place := placeOf t.current p
  let onTheWay ← (List.range place.length).foldlM
    (fun t length => addEntry false t (place.take length)) t
  addEntry true onTheWay place

/-- The part of the disk that arguments refer to. -/
def picture (a : Arguments) : IO FileTree := do
  let current := placeOf [] (← IO.currentDir).toString.toList
  (a.config.toList ++ a.models ++ [a.output]).foldlM addPath ⟨[], current⟩

/-- Writes the entries of a tree that another one does not have. -/
def save (before after : FileTree) : IO Unit := do
  for entry in after.entries do
    if before.entry? entry.1 != some entry.2 then
      match entry.2 with
      | .directory => IO.FS.createDirAll (diskPath entry.1)
      | .file content => IO.FS.writeBinFile (diskPath entry.1) ⟨content.toArray⟩

/-- How the program is called. -/
def usage : String :=
  "Usage: hidl2aidl [OPTIONS] --output <DIR> --model <PATH> <FQNAME>..."

/-- What is wrong with the arguments. -/
def complaint : ArgumentError → String
  | .missingRequired => "error: an output directory, a model and a target are required"
  | .valueValidation => "error: a value is not a number in range"
  | .invalidValue => "error: an option has no value"
  | .unknownArgument => "error: unknown option"
  | .conflict => "error: an option is given more than once"
  | .tooManyValues => "error: an option takes no value"
  | .displayHelp => usage
  | .displayVersion => "hidl2aidl 0.1.0"

/-- Tells why the arguments are not carried out; to ask for help or the version is no error. -/
def refuse (e : ArgumentError) : IO UInt32 := do
  if e = .displayHelp || e = .displayVersion then
    IO.println (complaint e)
    return 0
  else
    IO.eprintln (complaint e)
    return 2

/-- Carries out arguments. -/
def carryOut (a : Arguments) : IO UInt32 := do
  let before ← picture a
  let (after, result) := Run.run before a
  save before after
  match result with
  | .ok _ => return 0
  | .error e =>
    IO.eprintln (String.ofList (Text.ofString "ERROR: " ++ e.message))
    return 1

end Program

end FlatAidl

open FlatAidl in
/-- The program. -/
def main (args : List String) : IO UInt32 :=
  match Arguments.read (args.map String.toList) with
  | .ok a => Program.carryOut a
  | .error e => Program.refuse e
