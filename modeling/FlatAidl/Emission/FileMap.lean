import FlatAidl.Path.Basic

/-!
Files by path, in the order of paths. Paths with the same components are one place: writing there
again replaces the text and keeps the path as it was first written.
-/

namespace FlatAidl

structure FileMap where
  entries : List (Path × Text)
deriving DecidableEq

namespace FileMap

def empty : FileMap := ⟨[]⟩

def contains (m : FileMap) (p : Path) : Bool :=
  m.entries.any fun entry => entry.1.same p

def get? (m : FileMap) (p : Path) : Option Text :=
  (m.entries.find? fun entry => entry.1.same p).map Prod.snd

/-- The entries with one more, in front of the first that comes after it. -/
def place (p : Path) (t : Text) : List (Path × Text) → List (Path × Text)
  | [] => [(p, t)]
  | entry :: rest =>
    if Path.before p entry.1 then (p, t) :: entry :: rest else entry :: place p t rest

def put (m : FileMap) (p : Path) (t : Text) : FileMap :=
  if m.contains p then
    ⟨m.entries.map fun entry => if entry.1.same p then (entry.1, t) else entry⟩
  else ⟨place p t m.entries⟩

end FileMap

end FlatAidl
