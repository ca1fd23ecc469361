import FlatAidl.Path.Basic
import FlatAidl.Text.Decimal
import FlatAidl.Text.UpperCase

/-!
Qualified names `PACKAGE@MAJOR.MINOR::TYPE.NESTED`: a package at a version and a path of type names,
which is empty for the package itself. A type is nested in the type whose path is its own without
the last name.

AIDL has neither minor versions nor nested files: the major version joins the package unless it is
1, and the names of the type path, each with its first character in upper case, make one name. A
type's file is placed by its AIDL package.
-/

namespace FlatAidl

structure Version where
  major : Nat
  minor : Nat
deriving DecidableEq

namespace Version

def text (v : Version) : Text :=
  Decimal.write v.major ++ '.' :: Decimal.write v.minor

/-- Versions are ordered by major number first. -/
def order (v w : Version) : Ordering :=
  (compare v.major w.major).then (compare v.minor w.minor)

def newer (v w : Version) : Bool :=
  decide (w.major < v.major) || (v.major == w.major && decide (w.minor < v.minor))

end Version

/-- A package at a version, and a type in it if `names` is not empty. -/
structure QualifiedName where
  package : Text
  version : Version
  names : List Text
deriving DecidableEq

namespace QualifiedName

/-- The interface that every other interface extends in the end. -/
def base : QualifiedName :=
  ⟨Text.ofString "android.hidl.base", ⟨1, 0⟩, [Text.ofString "IBase"]⟩

def typePath (n : QualifiedName) : Text :=
  Text.join ['.'] n.names

def text (n : QualifiedName) : Text :=
  n.package ++ '@' :: n.version.text ++
    if n.names.isEmpty then [] else Text.ofString "::" ++ n.typePath

/-- Whether the name is a type's and not a package's. -/
def isType (n : QualifiedName) : Bool :=
  !n.names.isEmpty

def packageOnly (n : QualifiedName) : QualifiedName :=
  { n with names := [] }

def samePackage (n m : QualifiedName) : Bool :=
  decide (n.package = m.package ∧ n.version = m.version)

def nested (n : QualifiedName) (name : Text) : QualifiedName :=
  { n with names := n.names ++ [name] }

def parent? (n : QualifiedName) : Option QualifiedName :=
  if n.names.length < 2 then none else some { n with names := n.names.dropLast }

/-- Names are ordered by package, then version, then type path, texts by their characters. -/
def order (n m : QualifiedName) : Ordering :=
  ((compare n.package m.package).then (n.version.order m.version)).then (compare n.names m.names)

/-! ### The AIDL side -/

def aidlName (n : QualifiedName) : Text :=
  n.names.flatMap Text.capitalize

def aidlPackage (n : QualifiedName) : Text :=
  if n.version.major = 1 then n.package else n.package ++ Decimal.write n.version.major

def aidl (n : QualifiedName) : Text :=
  n.aidlPackage ++ '.' :: n.aidlName

def path (n : QualifiedName) : Path :=
  ((Text.split '.' n.aidlPackage).foldl Path.push []).push (n.aidlName ++ Text.ofString ".aidl")

end QualifiedName

end FlatAidl
