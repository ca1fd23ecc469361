import FlatAidl.CommandLine.Configuration
import FlatAidl.FileTree.Writing
import FlatAidl.Package.Targets
import FlatAidl.Run.Models

/-!
One run of the program over a file tree: models in, AIDL files and a conversion log out. Every
target is translated, whether or not another one fails. The log holds the notes of the targets in
front of the first one that failed, and is written in any case.
-/

namespace FlatAidl

/-- The files of a run, by their paths below the output directory, and where its log is. -/
structure RunSummary where
  files : List Path
  logPath : Path
deriving DecidableEq

inductive RunError where
  | options (cause : OptionsError)
  | models (cause : ModelError)
  | targets (cause : TargetError)
  | createOutput (path : Path) (cause : FileError)
  | writeLog (path : Path) (cause : FileError)
  | emission (cause : EmitError)
deriving DecidableEq

namespace RunError

def message : RunError → Text
  | options cause => cause.message
  | models cause => Text.ofString "failed to load models: " ++ cause.message
  | targets cause => cause.message
  | createOutput path cause => Text.ofString "failed to create " ++ path ++
      Text.ofString ": " ++ cause.message
  | writeLog path cause => Text.ofString "failed to write " ++ path ++
      Text.ofString ": " ++ cause.message
  | emission cause => Text.ofString "translation failed: " ++ cause.message

end RunError

namespace Run

def logName : Text :=
  Text.ofString "conversion.log"

/-- What a target produced: the paths of its files and its notes. -/
abbrev TargetResult := Except EmitError (List Path × List Text)

def translateOne (c : Catalogue) (o : Options) (root : Path) (t : FileTree) (id : DeclId) :
    FileTree × TargetResult :=
  let (p, result) := c.emit o (FileTree.output root) ⟨t, NoteLog.empty⟩ id
  (p.output, result.map fun paths => (paths, p.log.lines))

/-- Translates targets in their order; none is left out. -/
def translateAll (c : Catalogue) (o : Options) (root : Path) (t : FileTree) :
    List DeclId → FileTree × List TargetResult
  | [] => (t, [])
  | id :: rest =>
    let (t, result) := translateOne c o root t id
    let (t, results) := translateAll c o root t rest
    (t, result :: results)

/-- The paths and notes of the targets in front of the first one that failed, and its failure. -/
def collect : List TargetResult → List Path × List Text × Option EmitError
  | [] => ([], [], none)
  | .error e :: _ => ([], [], some e)
  | .ok (paths, notes) :: rest =>
    let (morePaths, moreNotes, failure) := collect rest
    (paths ++ morePaths, notes ++ moreNotes, failure)

/-- Writes the log and says how the run ended. -/
def conclude (root : Path) (t : FileTree) (results : List TargetResult) :
    FileTree × Except RunError RunSummary :=
  let (paths, notes, failure) := collect results
  let logPath := root.push logName
  match t.writeFile logPath (Utf8.encode (notes.flatMap Text.line)) with
  | .error cause => (t, .error (.writeLog logPath cause))
  | .ok t =>
    match failure with
    | some cause => (t, .error (.emission cause))
    | none => (t, .ok ⟨paths, logPath⟩)

/-- What has to be known before anything is written. -/
def prepare (t : FileTree) (a : Arguments) : Except RunError (Options × Catalogue × List DeclId) :=
  match Options.resolve t a with
  | .error cause => .error (.options cause)
  | .ok o =>
    match t.loadModels a.models with
    | .error cause => .error (.models cause)
    | .ok c =>
      match c.expandTargets a.targets with
      | .error cause => .error (.targets cause)
      | .ok ids => .ok (o, c, ids)

/-- Carries out a command line: the tree afterwards and how the run ended. -/
def run (t : FileTree) (a : Arguments) : FileTree × Except RunError RunSummary :=
  match prepare t a with
  | .error e => (t, .error e)
  | .ok (o, c, ids) =>
    match t.makeDirectories a.output with
    | (t, .error cause) => (t, .error (.createOutput a.output cause))
    | (t, .ok ()) =>
      let (t, results) := translateAll c o a.output t ids
      conclude a.output t results

end Run

end FlatAidl
