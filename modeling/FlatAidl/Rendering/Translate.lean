import FlatAidl.Rendering.File
import FlatAidl.Rendering.Imports
import FlatAidl.Signature.Plan

/-!
From a declaration to its AIDL file. An interface takes in all methods of its chain and imports what
these refer to; a structured type keeps its fields.
-/

namespace FlatAidl

namespace SignaturePlan

/-- The comments in front of a method: what was dropped, its name, what it returns. -/
def comments (plan : SignaturePlan) (m : Candidate) : List Text :=
  plan.dropped.map (fun r => (Remark.dropped r.type r.name m.method.name).comment) ++
    (if m.isRenamed then [(Remark.renamed m.method.name m.name).comment] else []) ++
    plan.returned.toList.map fun r => (Remark.returned r.type r.name m.method.name).comment

/-- The notes on a method in the log. -/
def notes (plan : SignaturePlan) (m : Candidate) : List Text :=
  plan.dropped.map (fun r => (Remark.dropped r.type r.name m.method.name).note) ++
    (if m.isRenamed then [(Remark.renamed m.method.name m.name).note] else []) ++
    plan.returned.toList.map fun r => (Remark.returned r.type r.name m.method.name).note

end SignaturePlan

namespace Catalogue

def aidlParam (c : Catalogue) (out : Bool) (p : Param) : Except Fault AidlParam :=
  (c.aidlType p.type).map fun type => ⟨out, type, p.name⟩

def aidlMethod (c : Catalogue) (m : Candidate) : Except Fault AidlMethod := do
  let plan ← SignaturePlan.ofResults c m.method.results
  let args ← m.method.args.mapM (c.aidlParam false)
  let outs ← plan.outParams.mapM (c.aidlParam true)
  return ⟨plan.comments m, plan.notes m, m.method.doc.map (·.update plan.changes),
    m.method.oneway, plan.returnType, m.name, args ++ outs⟩

def aidlField (c : Catalogue) (f : Field) : Except Fault AidlField :=
  (c.aidlType f.type).map fun type => ⟨f.doc, type, f.name⟩

def ignoredRemark (c : Catalogue) (m : Candidate) : Except Fault Remark :=
  (c.fetch m.declaredIn).map fun d => .ignored m.method.name d.name

/-- The name of the interface that an interface extends, unless that is the base interface. -/
def superName (c : Catalogue) (members : Interface) : Except Fault (Option QualifiedName) :=
  match members.super with
  | some super => if super = base then .ok none else (c.fetch super).map fun d => some d.name
  | none => .ok none

def translate (c : Catalogue) (id : DeclId) : Except Fault AidlFile := do
  let d ← c.fetch id
  match d.body with
  | .interface members =>
    let merged ← c.merge id
    let imports ← (← c.importsOf d merged.references).statements
    let super ← c.superName members
    let ignored ← merged.ignored.mapM c.ignoredRemark
    let methods ← merged.winners.mapM c.aidlMethod
    return ⟨d.name, imports, d.doc, .interface super merged.mixesOneway
      (ignored.map Remark.comment) (ignored.map Remark.note) methods⟩
  | .compound members =>
    let imports ← (← c.importsOf d d.body.references).statements
    let fields ← members.fields.mapM c.aidlField
    return ⟨d.name, imports, d.doc, .compound members.kind fields⟩

end Catalogue

/-- A file ready to be written: where it goes, its text and its notes. -/
structure Rendering where
  source : QualifiedName
  path : Path
  text : Text
  notes : List Text
deriving DecidableEq

def AidlFile.render (o : Options) (f : AidlFile) : Rendering :=
  ⟨f.source, f.source.path, f.text o, f.notes⟩

/-- The rendering of the declaration at a place, without what is nested in it. -/
def Catalogue.render (c : Catalogue) (o : Options) (id : DeclId) : Except Fault Rendering := do
  let file ← c.translate id
  if Pen.balanced 0 (file.steps o) then return file.render o
  else throw .unbalancedIndentation

end FlatAidl
