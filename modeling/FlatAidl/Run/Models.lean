import FlatAidl.FileTree.Basic
import FlatAidl.Package.Assembly
import FlatAidl.Package.Reading

/-!
The model files of a run, from their texts to a catalogue: every file is read before anything is
declared. A path that leads to a directory stands for the model files below it, in the order of a
walk by name; any other path stands for itself.
-/

namespace FlatAidl

def PackageModel.ofText (path : Path) (t : Text) : Except ModelError PackageModel :=
  match PackageModel.read? t with
  | some model => .ok model
  | none => .error (.malformed path)

/-- The catalogue of the models in texts, each with the path of its file: every text is read before
anything is declared. -/
def Catalogue.ofTexts (files : List (Path × Text)) : Except ModelError Catalogue := do
  Catalogue.ofPackages (← files.mapM fun file =>
    (PackageModel.ofText file.1 file.2).map fun model => (file.1, model))

namespace FileTree

def isModelName (names : List Text) : Bool :=
  match names.getLast? with
  | some name => Path.extension? name == some (Text.ofString "json")
  | none => false

def modelFilesAt (t : FileTree) (p : Path) : List Path :=
  if t.isDirectory p then
    ((t.filesBelow p).filter fun file => isModelName file.1).map fun file =>
      file.1.foldl Path.push p
  else [p]

def modelFiles (t : FileTree) (paths : List Path) : List Path :=
  paths.flatMap t.modelFilesAt

def readModel (t : FileTree) (p : Path) : Except ModelError (Path × PackageModel) :=
  match t.readText p with
  | .error cause => .error (.unreadable p cause.message)
  | .ok text => (PackageModel.ofText p text).map fun model => (p, model)

def loadModels (t : FileTree) (paths : List Path) : Except ModelError Catalogue := do
  Catalogue.ofPackages (← (t.modelFiles paths).mapM t.readModel)

end FileTree

end FlatAidl
