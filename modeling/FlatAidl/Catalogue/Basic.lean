import FlatAidl.Declaration.Basic

/-!
The catalogue of all declarations. It starts with the base interface, grows at its end only, and
finds a declaration by its place or by its name.
-/

namespace FlatAidl

/-- All declarations in the order in which they were declared. -/
structure Catalogue where
  decls : List Declaration
deriving DecidableEq

namespace Catalogue

def base : DeclId := 0

def baseDeclaration : Declaration :=
  ⟨QualifiedName.base, none, .interface ⟨none, []⟩, [], none⟩

/-- The catalogue that holds the base interface only. -/
def initial : Catalogue :=
  ⟨[baseDeclaration]⟩

/-- The number of declarations, the base interface included. -/
def size (c : Catalogue) : Nat :=
  c.decls.length

def get? (c : Catalogue) (id : DeclId) : Option Declaration :=
  c.decls[id]?

def name? (c : Catalogue) (id : DeclId) : Option QualifiedName :=
  (c.get? id).map Declaration.name

def lookup (c : Catalogue) (name : QualifiedName) : Option DeclId :=
  c.decls.findIdx? fun d => decide (d.name = name)

def ids (c : Catalogue) : List DeclId :=
  List.range c.size

/-- The place of the declaration that the one at `id` is nested in. -/
def parent? (c : Catalogue) (id : DeclId) : Option DeclId :=
  (c.get? id).bind Declaration.parent

def interface? (c : Catalogue) (id : DeclId) : Option Interface :=
  (c.get? id).bind Declaration.interface?

def super? (c : Catalogue) (id : DeclId) : Option DeclId :=
  (c.interface? id).bind Interface.super

def isInterface (c : Catalogue) (id : DeclId) : Bool :=
  (c.interface? id).isSome

/-- The declarations that are nested in none, without the base interface. -/
def topLevel (c : Catalogue) : List DeclId :=
  c.ids.filter fun id => id != base && (c.parent? id).isNone

/-- The declarations of a package and version that are nested in none. -/
def ofPackage (c : Catalogue) (package : QualifiedName) : List DeclId :=
  c.topLevel.filter fun id => (c.name? id).any (·.samePackage package)

/-- Replaces the declaration at a place by a function of it. -/
def update (c : Catalogue) (id : DeclId) (f : Declaration → Declaration) : Catalogue :=
  ⟨c.decls.modify id f⟩

def push (c : Catalogue) (d : Declaration) : Catalogue :=
  ⟨c.decls ++ [d]⟩

end Catalogue

end FlatAidl
