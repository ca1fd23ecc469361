import FlatAidl.Catalogue.Inheritance
import FlatAidl.Doc.Returns
import FlatAidl.Text.UpperCase

/-!
The results of a method in AIDL. AIDL reports failure by itself, so results that carry a status or
an error code are dropped; of the others a single one becomes the return value, and several stay as
`out` parameters.
-/

namespace FlatAidl

/-- Whether a result's name says that it carries a status or an error code. -/
def isStatusName (name : Text) : Bool :=
  let upper := Text.upper name
  Text.endsWith (Text.ofString "STATUS") upper || Text.endsWith (Text.ofString "ERROR") upper

structure TypedResult where
  type : Text
  name : Text
deriving DecidableEq

structure SignaturePlan where
  /-- The type of the return value. -/
  returnType : Text
  /-- The results that stay as `out` parameters. -/
  outParams : List Param
  /-- The results that do not stay, first the dropped ones and then the returned one. -/
  changes : List ResultChange
  /-- The dropped results. -/
  dropped : List TypedResult
  /-- The result that became the return value. -/
  returned : Option TypedResult
deriving DecidableEq

namespace SignaturePlan

def dropChange (p : Param) : ResultChange :=
  ⟨p.name, .dropped⟩

def typed (c : Catalogue) (p : Param) : Except Fault TypedResult :=
  (c.aidlType p.type).map fun type => ⟨type, p.name⟩

def ofResults (c : Catalogue) (results : List Param) : Except Fault SignaturePlan := do
  let status := results.filter fun p => isStatusName p.name
  let rest := results.filter fun p => !isStatusName p.name
  let dropped ← status.mapM (typed c)
  let changes := status.map dropChange
  match rest with
  | [single] =>
    let returned ← typed c single
    return ⟨returned.type, [], changes ++ [⟨single.name, .returned⟩], dropped, some returned⟩
  | _ => return ⟨Text.ofString "void", rest, changes, dropped, none⟩

/-- What became of the result with a name, by the first record of that name. -/
def fate? (plan : SignaturePlan) (name : Text) : Option ResultFate :=
  ResultChange.find? plan.changes name

end SignaturePlan

end FlatAidl
