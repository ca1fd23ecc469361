import FlatAidl.Catalogue.Inheritance

/-!
Building a catalogue. Declarations come first and are filled in afterwards, so members can refer to
what is declared later. Each operation either keeps the promises of the catalogue (names are
unique, a nested type's name extends its parent's, only interfaces are extended) or is refused and
changes nothing; that inheritance ends is checked once, at the finish.
-/

namespace FlatAidl

inductive BuildError where
  | duplicate (name : QualifiedName)
  | notATypeName (name : QualifiedName)
  | notNested (child parent : QualifiedName)
  | notAnInterface (name : QualifiedName)
  | notACompound (name : QualifiedName)
  | selfInheritance (name : QualifiedName)
  | inheritanceCycle (name : QualifiedName)
  | unknownDeclaration (id : DeclId)
deriving DecidableEq

namespace BuildError

def message : BuildError → Text
  | duplicate name => name.text ++ Text.ofString " is declared more than once"
  | notATypeName name => name.text ++ Text.ofString " is not a type name"
  | notNested child parent =>
    child.text ++ Text.ofString " is not nested directly inside " ++ parent.text
  | notAnInterface name => name.text ++ Text.ofString " is not an interface"
  | notACompound name => name.text ++ Text.ofString " is not a compound type"
  | selfInheritance name => name.text ++ Text.ofString " cannot extend itself"
  | inheritanceCycle name => Text.ofString "inheritance cycle through " ++ name.text
  | unknownDeclaration id => Text.ofString "no declaration at " ++ Decimal.write id

end BuildError

namespace Catalogue

/-- The declaration at a place that a building operation works on. -/
def target (c : Catalogue) (id : DeclId) : Except BuildError Declaration :=
  match c.get? id with
  | some d => .ok d
  | none => .error (.unknownDeclaration id)

/-- Whether a type may be declared with this name inside this parent: a nested type's name is its
parent's name and one more, any other has a single name. -/
def checkNesting (c : Catalogue) (name : QualifiedName) :
    Option DeclId → Except BuildError Unit
  | some parent => do
    let enclosing ← c.target parent
    if name.parent? = some enclosing.name then .ok ()
    else .error (.notNested name enclosing.name)
  | none =>
    if name.names.length = 1 then .ok ()
    else .error (.notNested name (name.parent?.getD name))

/-- Adds a declaration without members and lists it in its parent. -/
def append (c : Catalogue) (name : QualifiedName) (parent : Option DeclId) (body : Body) :
    Catalogue :=
  let grown := c.push ⟨name, none, body, [], parent⟩
  match parent with
  | none => grown
  | some p => grown.update p fun d => { d with nested := d.nested ++ [c.size] }

/-- Declares a type; the new declaration's place is the size that the catalogue had. -/
def declare (c : Catalogue) (name : QualifiedName) (parent : Option DeclId) (body : Body) :
    Except BuildError Catalogue :=
  if !name.isType then .error (.notATypeName name)
  else if (c.lookup name).isSome then .error (.duplicate name)
  else do
    c.checkNesting name parent
    return c.append name parent body

/-- Declares an interface that extends the base interface. -/
def declareInterface (c : Catalogue) (name : QualifiedName) (parent : Option DeclId) :
    Except BuildError Catalogue :=
  c.declare name parent (.interface ⟨some base, []⟩)

/-- Declares a structured type without fields. -/
def declareCompound (c : Catalogue) (kind : CompoundKind) (name : QualifiedName)
    (parent : Option DeclId) : Except BuildError Catalogue :=
  c.declare name parent (.compound ⟨kind, []⟩)

def setDoc (c : Catalogue) (id : DeclId) (doc : DocComment) : Catalogue :=
  c.update id fun d => { d with doc := some doc }

/-- Changes an interface's members; the base interface's never change. -/
def updateInterface (c : Catalogue) (id : DeclId) (f : Interface → Interface) :
    Except BuildError Catalogue := do
  let d ← c.target id
  match d.body with
  | .interface _ =>
    if id = base then .error (.notAnInterface d.name)
    else .ok (c.update id fun d =>
      match d.body with
      | .interface members => { d with body := .interface (f members) }
      | .compound _ => d)
  | .compound _ => .error (.notAnInterface d.name)

def setSuper (c : Catalogue) (id super : DeclId) : Except BuildError Catalogue := do
  let d ← c.target id
  if id = super then .error (.selfInheritance d.name)
  else
    let s ← c.target super
    if !s.isInterface then .error (.notAnInterface s.name)
    else c.updateInterface id fun members => { members with super := some super }

def addMethod (c : Catalogue) (id : DeclId) (m : Method) : Except BuildError Catalogue :=
  c.updateInterface id fun members => { members with methods := members.methods ++ [m] }

def addField (c : Catalogue) (id : DeclId) (f : Field) : Except BuildError Catalogue := do
  let d ← c.target id
  match d.body with
  | .compound _ =>
    .ok (c.update id fun d =>
      match d.body with
      | .compound members =>
        { d with body := .compound { members with fields := members.fields ++ [f] } }
      | .interface _ => d)
  | .interface _ => .error (.notACompound d.name)

/-- The finished catalogue, if every chain of inheritance ends. -/
def finish (c : Catalogue) : Except BuildError Catalogue :=
  match c.findCycle? with
  | none => .ok c
  | some id => do
    let d ← c.target id
    .error (.inheritanceCycle d.name)

end Catalogue

end FlatAidl
