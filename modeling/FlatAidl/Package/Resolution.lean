import FlatAidl.Catalogue.Building
import FlatAidl.Name.Reading
import FlatAidl.Path.Basic
import FlatAidl.Text.Blank

/-!
What the type texts of a model refer to. A text with `::` is a full name. Any other name is looked
for in the scope where it stands and then outwards up to the package, and the innermost declaration
found is meant; other packages and versions are never searched.
-/

namespace FlatAidl

/-- Why models do not make a catalogue; each names the file at fault, if one is. -/
inductive ModelError where
  | unreadable (path : Path) (cause : Text)
  | malformed (path : Path)
  | invalidName (path : Path) (name : Text) (cause : NameError)
  | unknownType (path : Path) (name : Text) (scope : QualifiedName)
  | unsupportedType (path : Path) (name : Text)
  | build (path : Path) (cause : BuildError)
  | invalidSet (cause : BuildError)
deriving DecidableEq

namespace ModelError

def message : ModelError → Text
  | unreadable path cause => Text.ofString "failed to read model " ++ path ++
      Text.ofString ": " ++ cause
  | malformed path => Text.ofString "failed to parse model " ++ path
  | invalidName path name cause => path ++ Text.ofString ": invalid name '" ++ name ++
      Text.ofString "': " ++ cause.message
  | unknownType path name scope => path ++ Text.ofString ": unknown type '" ++ name ++
      Text.ofString "' referenced from " ++ scope.text
  | unsupportedType path name => path ++ Text.ofString ": type '" ++ name ++
      Text.ofString "' has no AIDL equivalent"
  | build path cause => path ++ Text.ofString ": " ++ cause.message
  | invalidSet cause => Text.ofString "invalid model set: " ++ cause.message

end ModelError

namespace QualifiedName

/-- The name of what a path of names stands for inside this name. -/
def inside (n : QualifiedName) (path : List Text) : QualifiedName :=
  { n with names := n.names ++ path }

/-- A name and the names around it, from the innermost to the package. -/
def outward (n : QualifiedName) : List QualifiedName :=
  (List.range (n.names.length + 1)).reverse.map fun k => { n with names := n.names.take k }

end QualifiedName

namespace Catalogue

/-- The declaration that a name without `::` refers to inside a scope. -/
def searchOutward (c : Catalogue) (scope : QualifiedName) (name : Text) : Option DeclId :=
  scope.outward.findSome? fun enclosing => c.lookup (enclosing.inside (Text.split '.' name))

def resolveName (c : Catalogue) (path : Path) (scope : QualifiedName) (name : Text) :
    Except ModelError DeclId :=
  if (Text.cutAt? (Text.ofString "::") name).isSome then
    match QualifiedName.read name with
    | .error cause => .error (.invalidName path name cause)
    | .ok full =>
      match c.lookup full with
      | some id => .ok id
      | none => .error (.unknownType path name scope)
  else match c.searchOutward scope name with
    | some id => .ok id
    | none => .error (.unknownType path name scope)

/-- The type that a text without the form of a vector refers to inside a scope. -/
def resolveLeaf (c : Catalogue) (path : Path) (scope : QualifiedName) (t : Text) :
    Except ModelError TypeRef :=
  match Primitive.read? t with
  | some .pointer => .error (.unsupportedType path t)
  | some kind => .ok (.primitive kind)
  | none => (c.resolveName path scope t).map .named

/-- The element's text in a text of the form of a vector. -/
def vectorElement? (t : Text) : Option Text :=
  (Text.dropLead? (Text.ofString "vec<") t).bind (Text.dropTail? ['>'])

end Catalogue

namespace Text

theorem dropLead?_eq_some {lead t rest : Text} (h : dropLead? lead t = some rest) :
    t = lead ++ rest := by
  induction lead generalizing t with
  | nil => simpa [dropLead?] using h
  | cons a lead ih =>
    cases t with
    | nil => simp [dropLead?] at h
    | cons x t =>
      simp only [dropLead?] at h
      split at h
      · next heq => rw [ih h, heq, List.cons_append]
      · simp at h

theorem dropTail?_eq_some {tail t rest : Text} (h : dropTail? tail t = some rest) :
    t = rest ++ tail := by
  obtain ⟨r, hr, rfl⟩ := Option.map_eq_some_iff.1 h
  have := congrArg List.reverse (dropLead?_eq_some hr)
  simpa using this

theorem length_trimStart_le (t : Text) : (trimStart t).length ≤ t.length := by
  fun_induction trimStart t with
  | case1 => simp
  | case2 c rest _ ih => simp only [List.length_cons]; omega
  | case3 => simp

theorem length_trimEnd_le (t : Text) : (trimEnd t).length ≤ t.length := by
  fun_induction trimEnd t with
  | case1 => simp
  | case2 c rest h _ => simp
  | case3 c rest h _ => simp
  | case4 c rest _ ih => simp only [List.length_cons]; omega

theorem length_trim_le (t : Text) : (trim t).length ≤ t.length :=
  Nat.le_trans (length_trimEnd_le _) (length_trimStart_le t)

end Text

namespace Catalogue

/-- An element's text is shorter than its vector's, whatever stands around that. -/
theorem vectorElement?_length {t element : Text} (h : vectorElement? (Text.trim t) = some element) :
    element.length < t.length := by
  obtain ⟨rest, h1, h2⟩ := Option.bind_eq_some_iff.1 h
  have h3 := congrArg List.length (Text.dropLead?_eq_some h1)
  have h4 := congrArg List.length (Text.dropTail?_eq_some h2)
  have h5 := Text.length_trim_le t
  simp only [List.length_append, List.length_cons, List.length_nil] at h3 h4
  omega

def resolveType (c : Catalogue) (path : Path) (scope : QualifiedName) (t : Text) :
    Except ModelError TypeRef :=
  match _h : vectorElement? (Text.trim t) with
  | some element => (c.resolveType path scope element).map .vector
  | none => c.resolveLeaf path scope (Text.trim t)
termination_by t.length
decreasing_by exact vectorElement?_length _h

end Catalogue

end FlatAidl
