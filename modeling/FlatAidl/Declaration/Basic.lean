import FlatAidl.Declaration.Primitive
import FlatAidl.Doc.Comment
import FlatAidl.Name.Basic

/-!
Declarations of interfaces and of structured types. A declaration refers to others by their place
in the catalogue that holds them all, so that inheritance, nesting and references may go in any
direction.
-/

namespace FlatAidl

/-- The place of a declaration in its catalogue. -/
abbrev DeclId := Nat

inductive TypeRef where
  | primitive (kind : Primitive)
  | vector (element : TypeRef)
  | named (id : DeclId)
deriving DecidableEq

namespace TypeRef

def isVector : TypeRef → Bool
  | vector _ => true
  | _ => false

/-- The declaration that a type is, if it is one itself. -/
def named? : TypeRef → Option DeclId
  | named id => some id
  | _ => none

/-- The declarations at the leaves of a type, below any number of vectors. -/
def namedTypes : TypeRef → List DeclId
  | primitive _ => []
  | vector element => element.namedTypes
  | named id => [id]

end TypeRef

structure Param where
  name : Text
  type : TypeRef
deriving DecidableEq

/-- A method: it takes arguments and hands over any number of results. -/
structure Method where
  name : Text
  args : List Param
  results : List Param
  oneway : Bool
  doc : Option DocComment
deriving DecidableEq

namespace Method

/-- The types of the arguments, then those of the results. -/
def references (m : Method) : List TypeRef :=
  (m.args ++ m.results).map Param.type

end Method

/-- An interface's own members; only the base interface extends nothing. -/
structure Interface where
  super : Option DeclId
  methods : List Method
deriving DecidableEq

structure Field where
  name : Text
  type : TypeRef
  doc : Option DocComment
deriving DecidableEq

/-- Whether a value has all fields at once or exactly one of them. -/
inductive CompoundKind where
  | struct
  | union
deriving DecidableEq

structure Compound where
  kind : CompoundKind
  fields : List Field
deriving DecidableEq

inductive Body where
  | interface (members : Interface)
  | compound (members : Compound)
deriving DecidableEq

namespace Body

/-- The types that the members refer to; inherited members do not count. -/
def references : Body → List TypeRef
  | interface members => members.methods.flatMap Method.references
  | compound members => members.fields.map Field.type

end Body

/-- A declaration: its name, comment and members, the declarations nested directly in it, and the
one it is nested in. -/
structure Declaration where
  name : QualifiedName
  doc : Option DocComment
  body : Body
  nested : List DeclId
  parent : Option DeclId
deriving DecidableEq

namespace Declaration

def isInterface (d : Declaration) : Bool :=
  match d.body with
  | .interface _ => true
  | .compound _ => false

def interface? (d : Declaration) : Option Interface :=
  match d.body with
  | .interface members => some members
  | .compound _ => none

end Declaration

end FlatAidl
