import FlatAidl.Package.Model
import FlatAidl.Package.Resolution

/-!
From package models to a catalogue. All models are declared before any declaration gets its members,
so a member may refer to what another file or a later place declares. Declarations take their
places in the order in which the models list them, each before what is nested in it.
-/

namespace FlatAidl

/-- A declared model that waits for its members: its place, its file and the model. -/
structure PendingModel where
  id : DeclId
  path : Path
  model : DeclModel

/-- A catalogue under way and the models that wait for their members. -/
structure Assembly where
  catalogue : Catalogue
  pending : List PendingModel

namespace Assembly

def empty : Assembly :=
  ⟨Catalogue.initial, []⟩

/-- The text of a declaration's full name: a type's name follows its package with `::` and another
type with a dot. -/
def nameText (scope : QualifiedName) (name : Text) : Text :=
  if scope.isType then scope.text ++ '.' :: name else scope.text ++ Text.ofString "::" ++ name

def scopedName (path : Path) (scope : QualifiedName) (name : Text) :
    Except ModelError QualifiedName :=
  match QualifiedName.read (nameText scope name) with
  | .ok full => .ok full
  | .error cause => .error (.invalidName path (nameText scope name) cause)

def emptyBody : DeclModel → Body
  | .interface .. => .interface ⟨some Catalogue.base, []⟩
  | .compound kind .. => .compound ⟨kind, []⟩

def declareOne (a : Assembly) (path : Path) (parent : Option DeclId) (name : QualifiedName)
    (model : DeclModel) : Except ModelError Assembly :=
  match a.catalogue.declare name parent (emptyBody model) with
  | .error cause => .error (.build path cause)
  | .ok catalogue => .ok ⟨catalogue, a.pending ++ [⟨a.catalogue.size, path, model⟩]⟩

mutual

/-- Declares a model and everything nested in it. -/
def declare (a : Assembly) (path : Path) (scope : QualifiedName) (parent : Option DeclId) :
    DeclModel → Except ModelError Assembly
  | .interface name super doc methods types => do
    let full ← scopedName path scope name
    let grown ← a.declareOne path parent full (.interface name super doc methods types)
    declareAll grown path full (some a.catalogue.size) types
  | .compound kind name doc fields types => do
    let full ← scopedName path scope name
    let grown ← a.declareOne path parent full (.compound kind name doc fields types)
    declareAll grown path full (some a.catalogue.size) types

def declareAll (a : Assembly) (path : Path) (scope : QualifiedName) (parent : Option DeclId) :
    List DeclModel → Except ModelError Assembly
  | [] => .ok a
  | model :: rest => do
    let grown ← declare a path scope parent model
    declareAll grown path scope parent rest

end

def declarePackage (a : Assembly) (file : Path × PackageModel) : Except ModelError Assembly :=
  match QualifiedName.read file.2.package with
  | .error cause => .error (.invalidName file.1 file.2.package cause)
  | .ok package => a.declareAll file.1 package none file.2.declarations

end Assembly

namespace Catalogue

/-- The comment with a text that stands in a file. -/
def docIn (path : Path) (t : Text) : DocComment :=
  DocComment.read t ⟨path, 0, 0⟩

def resolveParam (c : Catalogue) (path : Path) (scope : QualifiedName) (p : ParamModel) :
    Except ModelError Param :=
  (c.resolveType path scope p.type).map fun type => ⟨p.name, type⟩

def resolveMethod (c : Catalogue) (path : Path) (scope : QualifiedName) (m : MethodModel) :
    Except ModelError Method := do
  let args ← m.args.mapM (c.resolveParam path scope)
  let results ← m.results.mapM (c.resolveParam path scope)
  return ⟨m.name, args, results, m.oneway, m.doc.map (docIn path)⟩

def resolveField (c : Catalogue) (path : Path) (scope : QualifiedName) (f : FieldModel) :
    Except ModelError Field :=
  (c.resolveType path scope f.type).map fun type => ⟨f.name, type, f.doc.map (docIn path)⟩

/-- An operation's result, an error of which is a file's. -/
def blame {α : Type} (path : Path) : Except BuildError α → Except ModelError α
  | .ok a => .ok a
  | .error cause => .error (.build path cause)

def defineMethods (c : Catalogue) (path : Path) (scope : QualifiedName) (id : DeclId) :
    List MethodModel → Except ModelError Catalogue
  | [] => .ok c
  | model :: rest => do
    let method ← c.resolveMethod path scope model
    let grown ← blame path (c.addMethod id method)
    defineMethods grown path scope id rest

def defineFields (c : Catalogue) (path : Path) (scope : QualifiedName) (id : DeclId) :
    List FieldModel → Except ModelError Catalogue
  | [] => .ok c
  | model :: rest => do
    let field ← c.resolveField path scope model
    let grown ← blame path (c.addField id field)
    defineFields grown path scope id rest

/-- Makes an interface extend the one that its model names, if it names one. -/
def defineSuper (c : Catalogue) (path : Path) (scope : QualifiedName) (id : DeclId) :
    Option Text → Except ModelError Catalogue
  | none => .ok c
  | some super => do
    let target ← c.resolveName path scope super
    blame path (c.setSuper id target)

def define (c : Catalogue) (p : PendingModel) : Except ModelError Catalogue := do
  let d ← blame p.path (c.target p.id)
  let commented := match p.model.doc with
    | some t => c.setDoc p.id (docIn p.path t)
    | none => c
  match p.model with
  | .interface _ super _ methods _ =>
    let extended ← commented.defineSuper p.path d.name p.id super
    extended.defineMethods p.path d.name p.id methods
  | .compound _ _ _ fields _ => commented.defineFields p.path d.name p.id fields

/-- The catalogue of package models, each with the path of its file. -/
def ofPackages (files : List (Path × PackageModel)) : Except ModelError Catalogue := do
  let declared ← files.foldlM Assembly.declarePackage Assembly.empty
  let defined ← declared.pending.foldlM define declared.catalogue
  match defined.finish with
  | .ok c => .ok c
  | .error cause => .error (.invalidSet cause)

end Catalogue

end FlatAidl
