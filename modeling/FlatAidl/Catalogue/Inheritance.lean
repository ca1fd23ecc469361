import FlatAidl.Catalogue.Basic

/-!
What is asked of a catalogue that is promised to be sound, and the faults where it is not. Types are
written as AIDL has them: a vector is an array, and a declared type goes by its full AIDL name. The
inheritance chain of an interface goes from the interface itself to the base interface; a chain
without a repetition visits each declaration at most once, so walks longer than the catalogue are
given up, and an interface whose chain does not end can be found.
-/

namespace FlatAidl

/-- A broken promise of the catalogue or of the renderer: what was asked for does not exist. -/
inductive Fault where
  | notAnInterface (name : QualifiedName)
  | inheritanceCycle (name : QualifiedName)
  | noCounterpart (kind : Primitive)
  | unknownDeclaration (id : DeclId)
  | lostBaseImport
  | unbalancedIndentation
deriving DecidableEq

namespace Fault

def message : Fault → Text
  | notAnInterface name => name.text ++ Text.ofString " is not an interface"
  | inheritanceCycle name => Text.ofString "inheritance cycle through " ++ name.text
  | noCounterpart kind =>
    Text.ofString "no AIDL mapping for HIDL primitive type \x60" ++ kind.hidl ++ ['\x60']
  | unknownDeclaration id => Text.ofString "no declaration at " ++ Decimal.write id
  | lostBaseImport =>
    Text.ofString "import set lost the implicit android.hidl.base.IBase import"
  | unbalancedIndentation => Text.ofString "unbalanced indentation"

end Fault

namespace Catalogue

/-- The declaration at a place that is promised to exist. -/
def fetch (c : Catalogue) (id : DeclId) : Except Fault Declaration :=
  match c.get? id with
  | some d => .ok d
  | none => .error (.unknownDeclaration id)

/-- The AIDL name, with its package, of the declaration at a place. -/
def aidlName (c : Catalogue) (id : DeclId) : Except Fault Text :=
  (c.fetch id).map fun d => d.name.aidl

def aidlType (c : Catalogue) : TypeRef → Except Fault Text
  | .primitive kind =>
    match kind.aidl? with
    | some name => .ok name
    | none => .error (.noCounterpart kind)
  | .vector element => (c.aidlType element).map (· ++ Text.ofString "[]")
  | .named id => c.aidlName id

/-! ### Chains -/

/-- The chain from an interface on, of at most `room` members. -/
def chainWithin (c : Catalogue) : Nat → DeclId → Except Fault (List DeclId)
  | room, id =>
    match c.get? id with
    | none => .error (.unknownDeclaration id)
    | some d =>
      match room with
      | 0 => .error (.inheritanceCycle d.name)
      | room + 1 =>
        match d.body with
        | .compound _ => .error (.notAnInterface d.name)
        | .interface members =>
          match members.super with
          | none => .ok [id]
          | some next => (chainWithin c room next).map (id :: ·)

/-- The interface and everything it inherits from, the most derived first. -/
def chain (c : Catalogue) (id : DeclId) : Except Fault (List DeclId) :=
  c.chainWithin c.size id

/-- Whether the walk from `current` comes to `target`, or goes on after `steps` more steps. -/
def returnsWithin (c : Catalogue) (target : DeclId) : Nat → DeclId → Bool
  | steps, current =>
    match c.super? current with
    | none => false
    | some next =>
      decide (next = target) ||
        match steps with
        | 0 => true
        | steps + 1 => returnsWithin c target steps next

/-- The first declaration whose chain does not end. -/
def findCycle? (c : Catalogue) : Option DeclId :=
  c.ids.find? fun id => c.returnsWithin id c.size id

end Catalogue

end FlatAidl
