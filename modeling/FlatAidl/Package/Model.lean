import FlatAidl.Declaration.Basic

/-!
The model of one package version, as a file describes it: its declarations with everything nested
in them, in which types and extended interfaces are still texts.
-/

namespace FlatAidl

structure ParamModel where
  name : Text
  type : Text
deriving DecidableEq

structure MethodModel where
  name : Text
  args : List ParamModel
  results : List ParamModel
  oneway : Bool
  doc : Option Text
deriving DecidableEq

structure FieldModel where
  name : Text
  type : Text
  doc : Option Text
deriving DecidableEq

inductive DeclModel where
  | interface (name : Text) (super doc : Option Text) (methods : List MethodModel)
      (types : List DeclModel)
  | compound (kind : CompoundKind) (name : Text) (doc : Option Text) (fields : List FieldModel)
      (types : List DeclModel)

namespace DeclModel

def name : DeclModel → Text
  | interface name _ _ _ _ => name
  | compound _ name _ _ _ => name

def doc : DeclModel → Option Text
  | interface _ _ doc _ _ => doc
  | compound _ _ doc _ _ => doc

def types : DeclModel → List DeclModel
  | interface _ _ _ _ types => types
  | compound _ _ _ _ types => types

end DeclModel

/-- A package version: the text of its name and its declarations. -/
structure PackageModel where
  package : Text
  declarations : List DeclModel

end FlatAidl
