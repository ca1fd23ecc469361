import FlatAidl.Emission.FileMap
import FlatAidl.Rendering.Translate

/-!
Writing declarations out. A declaration comes after everything nested in it, each in a file of its
own, and its notes go to the log once its file is written. The first refusal, by the output or by
the log, ends the emission; what was written before stays.
-/

namespace FlatAidl

/-- A place for files with a state of its own: what it makes of a file, and why it refused the file
if it did. -/
structure Output (σ : Type) where
  put : σ → Path → Text → σ × Option Text

namespace Output

/-- Files in memory, refusing the paths for which a reason is given. -/
def memory (refusal : Path → Option Text) : Output FileMap where
  put files p t :=
    match refusal p with
    | some cause => (files, some cause)
    | none => (files.put p t, none)

end Output

/-- The lines of the conversion log, and how many more it takes if that is limited. -/
structure NoteLog where
  lines : List Text
  room : Option Nat
deriving DecidableEq

namespace NoteLog

def empty : NoteLog := ⟨[], none⟩

/-- The log with one more line, if it takes one. -/
def add? (log : NoteLog) (note : Text) : Option NoteLog :=
  match log.room with
  | none => some { log with lines := log.lines ++ [note] }
  | some 0 => none
  | some (room + 1) => some ⟨log.lines ++ [note], some room⟩

/-- Adds lines until the log is full; tells whether all were taken. -/
def addAll (log : NoteLog) : List Text → NoteLog × Bool
  | [] => (log, true)
  | note :: rest =>
    match log.add? note with
    | none => (log, false)
    | some log => log.addAll rest

def text (log : NoteLog) : Text :=
  log.lines.flatMap Text.line

end NoteLog

inductive EmitError where
  | output (source : QualifiedName) (path : Path) (cause : Text)
  | notes
  | fault (f : Fault)
deriving DecidableEq

namespace EmitError

def message : EmitError → Text
  | output source path cause =>
    Text.ofString "failed to write " ++ path ++ Text.ofString " for " ++ source.text ++
      Text.ofString ": " ++ cause
  | notes => Text.ofString "failed to write conversion notes: notes full"
  | fault f => f.message

end EmitError

/-- The state of an emission: what the output has, and the log. -/
structure Progress (σ : Type) where
  output : σ
  log : NoteLog

namespace Catalogue

/-- The declarations at and below a place, each with the ones around it from `outer` on; what is
nested comes first. Nesting deeper than `room` is not followed. -/
def visitsWithin (c : Catalogue) : Nat → List DeclId → DeclId → List (List DeclId × DeclId)
  | 0, _, _ => []
  | room + 1, outer, id =>
    (match c.get? id with
      | some d => d.nested.flatMap (c.visitsWithin room (outer ++ [id]))
      | none => []) ++ [(outer, id)]

/-- The declarations at and below a place in the order of their files, each with the ones around
it. No nesting is deeper than the number of declarations. -/
def visits (c : Catalogue) (id : DeclId) : List (List DeclId × DeclId) :=
  c.visitsWithin c.size [] id

/-- The declarations at and below a place in the order of their files. -/
def emissionOrder (c : Catalogue) (id : DeclId) : List DeclId :=
  (c.visits id).map Prod.snd

variable {σ : Type}

def emitOne (c : Catalogue) (o : Options) (out : Output σ) (p : Progress σ) (id : DeclId) :
    Progress σ × Except EmitError Path :=
  match c.render o id with
  | .error f => (p, .error (.fault f))
  | .ok r =>
    match out.put p.output r.path r.text with
    | (s, some cause) => ({ p with output := s }, .error (.output r.source r.path cause))
    | (s, none) =>
      match p.log.addAll r.notes with
      | (log, true) => (⟨s, log⟩, .ok r.path)
      | (log, false) => (⟨s, log⟩, .error .notes)

/-- Writes declarations in their order up to the first refusal. -/
def emitList (c : Catalogue) (o : Options) (out : Output σ) (p : Progress σ) :
    List DeclId → Progress σ × Except EmitError (List Path)
  | [] => (p, .ok [])
  | id :: rest =>
    match c.emitOne o out p id with
    | (p, .error e) => (p, .error e)
    | (p, .ok path) =>
      let (p, result) := c.emitList o out p rest
      (p, result.map (path :: ·))

/-- Writes a declaration and everything nested in it; gives the paths in the order of writing. -/
def emit (c : Catalogue) (o : Options) (out : Output σ) (p : Progress σ) (id : DeclId) :
    Progress σ × Except EmitError (List Path) :=
  c.emitList o out p (c.emissionOrder id)

end Catalogue

end FlatAidl
