import FlatAidl.Flattening.Merge
import FlatAidl.Rendering.Translate

/-!
Diagnostic events: what the merge of methods, the layout of signatures and the writing of files
report for those who look for the reason of a result. They change no result.
-/

namespace FlatAidl

inductive Level where
  | error
  | warn
  | info
  | debug
  | trace
deriving DecidableEq

namespace Level

/-- The place of a level: the more severe, the smaller. -/
def rank : Level → Nat
  | error => 1
  | warn => 2
  | info => 3
  | debug => 4
  | trace => 5

def name : Level → Text
  | error => Text.ofString "ERROR"
  | warn => Text.ofString "WARN"
  | info => Text.ofString "INFO"
  | debug => Text.ofString "DEBUG"
  | trace => Text.ofString "TRACE"

end Level

inductive FieldValue where
  | text (t : Text)
  | number (n : Nat)
deriving DecidableEq

/-- An event: its level, the part of the program it comes from, its fields, and the declarations
whose emission it belongs to, the outermost first. -/
structure Event where
  level : Level
  target : Text
  fields : List (Text × FieldValue)
  within : List QualifiedName
deriving DecidableEq

namespace Event

def mergeTarget : Text :=
  Text.ofString "hidl2aidl_emitter::method_merger"

def layoutTarget : Text :=
  Text.ofString "hidl2aidl_emitter::wrapped_printer"

def fileTarget : Text :=
  Text.ofString "hidl2aidl_emitter::file_emitter"

/-- The name of the scope that the emission of a declaration is. -/
def scopeName : Text :=
  Text.ofString "emit_declaration"

/-- The field of that scope, which holds the declaration's name. -/
def scopeField : Text :=
  Text.ofString "fq_name"

def message (s : String) : Text × FieldValue :=
  (Text.ofString "message", .text (Text.ofString s))

def ofCollision (within : List QualifiedName) (c : Collision) : Event :=
  ⟨.debug, mergeTarget,
    [message (if c.replaced then "method superseded" else "older method ignored"),
      (Text.ofString "name", .text c.loser.name),
      (Text.ofString "ignored", .text c.loser.method.name),
      (Text.ofString "winner", .text c.winner.method.name)], within⟩

def ofBreak (within : List QualifiedName) (b : LineBreak) : Event :=
  ⟨.trace, layoutTarget,
    [message "wrapping group", (Text.ofString "column", .number b.column),
      (Text.ofString "width", .number b.width), (Text.ofString "max_width", .number b.limit)],
    within⟩

def ofFile (within : List QualifiedName) (path : Path) : Event :=
  ⟨.debug, fileTarget,
    [message "wrote aidl file", (Text.ofString "path", .text path)], within⟩

end Event

namespace Catalogue

/-- The collisions of a declaration's merge; a structured type has none. -/
def collisions (c : Catalogue) (id : DeclId) : Except Fault (List Collision) :=
  if c.isInterface id then (c.merge id).map Merge.collisions else .ok []

/-- The events of emitting one declaration without what is nested in it. -/
def events (c : Catalogue) (o : Options) (within : List QualifiedName) (id : DeclId) :
    Except Fault (List Event) := do
  let file ← c.translate id
  let collisions ← c.collisions id
  return collisions.map (Event.ofCollision within) ++
    (file.body.breaks o).map (Event.ofBreak within) ++ [Event.ofFile within file.source.path]

end Catalogue

end FlatAidl
