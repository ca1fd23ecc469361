import FlatAidl.Catalogue.Inheritance
import FlatAidl.Name.Reading

/-!
One set of methods for a chain of interfaces. A name `BASE_MAJOR_MINOR` whose base holds no
underscore stands for the method `BASE` at that version; a name of any other shape stands for itself.
The methods of all members of the chain are candidates, in chain order and within a member in the
order of declaration. Candidates of the same canonical name collide; the newer version stays, of two
equal versions the one from the more derived interface, and of two from the same interface the later
one. A name keeps the place of its first candidate, and every collision is recorded.
-/

namespace FlatAidl

/-- A method name taken apart into its base and its version. -/
structure VersionSuffix where
  base : Text
  version : Version
deriving DecidableEq

namespace VersionSuffix

/-- The parts of a name of the shape `BASE_MAJOR_MINOR`. -/
def read? (name : Text) : Option VersionSuffix := do
  let (base, rest) ← Text.cut? '_' name
  let (major, minor) ← Text.cut? '_' rest
  if base.isEmpty then none
  else
    let major ← Decimal.read? Version.bound major
    let minor ← Decimal.read? Version.bound minor
    return ⟨base, ⟨major, minor⟩⟩

end VersionSuffix

/-- A method with the name and version under which it competes. -/
structure Candidate where
  method : Method
  declaredIn : DeclId
  name : Text
  version : Version
  depth : Nat
deriving DecidableEq

namespace Candidate

def canonicalName (method : Text) : Text :=
  match VersionSuffix.read? method with
  | some suffix => suffix.base
  | none => method

/-- The version of a method: its suffix, or else the version of its interface. -/
def effectiveVersion (method : Text) (declared : Version) : Version :=
  match VersionSuffix.read? method with
  | some suffix => suffix.version
  | none => declared

/-- The candidate that a method is, given the interface that declares it. -/
def ofMethod (declaredIn : DeclId) (declared : Version) (depth : Nat) (m : Method) : Candidate :=
  ⟨m, declaredIn, canonicalName m.name, effectiveVersion m.name declared, depth⟩

/-- Whether the candidate's method goes by another name than its own. -/
def isRenamed (c : Candidate) : Bool :=
  decide (c.name ≠ c.method.name)

/-- Whether a candidate takes the place of an earlier one of its name. -/
def supersedes (c current : Candidate) : Bool :=
  if c.version = current.version then decide (c.depth ≤ current.depth)
  else c.version.newer current.version

end Candidate

/-- Two candidates of one name met: the loser, the method that stays, and whether the loser had the
place before. -/
structure Collision where
  loser : Candidate
  winner : Candidate
  replaced : Bool
deriving DecidableEq

/-- The candidates that stay, in the order in which their names first occurred, and the collisions
in the order in which they happened. -/
structure Merge where
  winners : List Candidate
  collisions : List Collision
deriving DecidableEq

namespace Merge

def empty : Merge := ⟨[], []⟩

def winner? (m : Merge) (name : Text) : Option Candidate :=
  m.winners.find? fun c => c.name == name

def ignored (m : Merge) : List Candidate :=
  m.collisions.map Collision.loser

/-- Puts a candidate into the place of the one that holds its name. -/
def replace (winners : List Candidate) (c : Candidate) : List Candidate :=
  winners.map fun w => if w.name = c.name then c else w

def insert (m : Merge) (c : Candidate) : Merge :=
  match m.winner? c.name with
  | none => { m with winners := m.winners ++ [c] }
  | some current =>
    if c.supersedes current then
      ⟨replace m.winners c, m.collisions ++ [⟨current, c, true⟩]⟩
    else ⟨m.winners, m.collisions ++ [⟨c, current, false⟩]⟩

def ofCandidates (cs : List Candidate) : Merge :=
  cs.foldl insert empty

/-- Whether some of the methods that stay are oneway and some are not. -/
def mixesOneway (m : Merge) : Bool :=
  let oneway := m.winners.filter fun c => c.method.oneway
  !oneway.isEmpty && decide (oneway.length < m.winners.length)

end Merge

namespace Catalogue

def candidatesAt (c : Catalogue) (id : DeclId) (depth : Nat) : List Candidate :=
  match c.get? id with
  | some d =>
    match d.body with
    | .interface members => members.methods.map (Candidate.ofMethod id d.name.version depth)
    | .compound _ => []
  | none => []

/-- The candidates of a chain whose first member is at a depth. -/
def candidatesFrom (c : Catalogue) (depth : Nat) : List DeclId → List Candidate
  | [] => []
  | id :: rest => c.candidatesAt id depth ++ c.candidatesFrom (depth + 1) rest

/-- The merged methods of an interface and everything it inherits from. -/
def merge (c : Catalogue) (id : DeclId) : Except Fault Merge :=
  (c.chain id).map fun chain => Merge.ofCandidates (c.candidatesFrom 0 chain)

end Catalogue

end FlatAidl
