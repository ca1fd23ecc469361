import FlatAidl.Catalogue.Inheritance
import FlatAidl.Flattening.Merge

/-!
The imports of one file: full AIDL names without repetition, in the order in which they were first
asked for. The base interface is always known and never imported, and a file does not import what
it declares itself.
-/

namespace FlatAidl

/-- The names that are known already and, among them, those that are imported. -/
structure Imports where
  known : List Text
  names : List Text
deriving DecidableEq

namespace Imports

/-- The name of the base interface, which needs no import. -/
def baseName : Text :=
  QualifiedName.base.aidl

/-- No imports; only the base interface is known. -/
def empty : Imports :=
  ⟨[baseName], []⟩

def contains (i : Imports) (name : Text) : Bool :=
  i.known.contains name

def insert (i : Imports) (name : Text) : Imports :=
  if i.contains name then i else ⟨i.known ++ [name], i.names ++ [name]⟩

/-- Makes a name known without importing it. -/
def exclude (i : Imports) (name : Text) : Imports :=
  if i.contains name then i else { i with known := i.known ++ [name] }

def statements (i : Imports) : Except Fault (List Text) :=
  if i.contains baseName then
    .ok (i.names.map fun name => Text.ofString "import " ++ name ++ [';'])
  else .error .lostBaseImport

/-- The imports of a file that declares `own` and asks for names in order. -/
def ofNames (own : Text) (names : List Text) : Imports :=
  names.foldl insert (empty.exclude own)

end Imports

/-- The types that the merged methods refer to, method by method. -/
def Merge.references (m : Merge) : List TypeRef :=
  m.winners.flatMap fun c => c.method.references

namespace Catalogue

/-- The imports of a declaration's file: the declarations nested in it, then the declarations among
the types that its members refer to. -/
def importsOf (c : Catalogue) (d : Declaration) (references : List TypeRef) :
    Except Fault Imports :=
  ((d.nested ++ references.flatMap TypeRef.namedTypes).mapM c.aidlName).map fun names =>
    Imports.ofNames d.name.aidl names

end Catalogue

end FlatAidl
