import FlatAidl.Declaration.Basic
import FlatAidl.Layout.Indented
import FlatAidl.Layout.Wrapped

/-!
An AIDL file as its parts, and how the parts are written. Where a file departs from its source, it
has a comment for its reader and the conversion log has a note; these are two lists, written apart.
The user chooses the form of the text: the longest line a signature may take, the comment at the top
of every file, and the width of one level of indentation. The notes do not depend on that.
-/

namespace FlatAidl

structure Options where
  maxLineLength : Nat
  headerComment : Text
  indentWidth : Nat
deriving DecidableEq

namespace Options

/-- The form that is used where nothing is chosen. -/
def standard : Options :=
  ⟨100, Text.ofString "// FIXME: license file if you have one", 4⟩

/-- Further lines of a signature are indented by two more levels than its first line. -/
def continuationIndent (o : Options) : Nat :=
  o.indentWidth * 2

end Options

/-- A departure from the source that a reader of the file should know. -/
inductive Remark where
  /-- A method was left out because a newer one has its name. -/
  | ignored (method : Text) (declaredIn : QualifiedName)
  /-- A status or error result was left out. -/
  | dropped (type result method : Text)
  /-- A method goes by its name without the version. -/
  | renamed (method name : Text)
  /-- A result became the return value. -/
  | returned (type result method : Text)
deriving DecidableEq

namespace Remark

/-- The comment in the file. -/
def comment : Remark → Text
  | ignored method _ =>
    Text.ofString "// Ignoring method " ++ method ++
      Text.ofString " since a newer alternative is available."
  | dropped type result _ =>
    Text.ofString "// Ignoring result " ++ type ++ ' ' :: result ++
      Text.ofString " since AIDL has built in status types."
  | renamed method name =>
    Text.ofString "// Changing method name from " ++ method ++ Text.ofString " to " ++ name
  | returned type result _ =>
    Text.ofString "// Adding return type to method instead of out param " ++ type ++
      ' ' :: result ++ Text.ofString " since there is only one return value."

/-- The note in the conversion log, behind the name of what the file declares. -/
def note : Remark → Text
  | ignored method declaredIn =>
    Text.ofString "ignoring " ++ method ++ Text.ofString " from " ++ declaredIn.text
  | dropped _ result method =>
    Text.ofString "dropped result " ++ result ++ Text.ofString " of " ++ method
  | renamed method name => Text.ofString "renamed " ++ method ++ Text.ofString " to " ++ name
  | returned _ result method =>
    Text.ofString "result " ++ result ++ Text.ofString " of " ++ method ++
      Text.ofString " is now the return value"

end Remark

structure AidlParam where
  out : Bool
  type : Text
  name : Text
deriving DecidableEq

def AidlParam.text (p : AidlParam) : Text :=
  (if p.out then Text.ofString "out " else Text.ofString "in ") ++ p.type ++ ' ' :: p.name

/-- A method with its comments in the file and its notes in the log. -/
structure AidlMethod where
  comments : List Text
  notes : List Text
  doc : Option DocComment
  oneway : Bool
  returnType : Text
  name : Text
  params : List AidlParam
deriving DecidableEq

structure AidlField where
  doc : Option DocComment
  type : Text
  name : Text
deriving DecidableEq

inductive AidlBody where
  /-- An interface, with the one that it no longer inherits from, and the comments and the notes on
  the methods left out of it. -/
  | interface (super : Option QualifiedName) (mixesOneway : Bool) (comments notes : List Text)
      (methods : List AidlMethod)
  /-- A structured type. -/
  | compound (kind : CompoundKind) (fields : List AidlField)
deriving DecidableEq

/-- An AIDL file: the declaration it comes from and the parts of its text. -/
structure AidlFile where
  source : QualifiedName
  imports : List Text
  doc : Option DocComment
  body : AidlBody
deriving DecidableEq

def docLines (doc : Option DocComment) : List Text :=
  match doc with
  | some d => d.block
  | none => []

namespace AidlMethod

def lead (m : AidlMethod) : Text :=
  (if m.oneway then Text.ofString "oneway " else []) ++ m.returnType ++ ' ' :: m.name ++ ['(']

/-- Each parameter with what separates it from the next or ends the signature. -/
def groups : List Text → List Text
  | [] => []
  | [last] => [last ++ Text.ofString ");"]
  | param :: rest => (param ++ [',']) :: groups rest

/-- The parts of the signature: a parameter and what follows it stay together. -/
def parts (m : AidlMethod) : List LayoutPart :=
  .text m.lead ::
    if m.params.isEmpty then [.text (Text.ofString ");")]
    else (groups (m.params.map AidlParam.text)).map .group

/-- The measures of a signature, which stands one level deep. -/
def shape (o : Options) : LineShape :=
  ⟨o.maxLineLength, o.indentWidth, o.continuationIndent⟩

def signature (o : Options) (m : AidlMethod) : Layout :=
  Layout.ofParts (shape o) m.parts

/-- The lines of a method: its comments, its documentation and its signature. -/
def lines (o : Options) (m : AidlMethod) : List Text :=
  m.comments ++ docLines m.doc ++ (m.signature o).lines

end AidlMethod

namespace AidlField

def lines (f : AidlField) : List Text :=
  docLines f.doc ++ [f.type ++ ' ' :: f.name ++ [';']]

end AidlField

def CompoundKind.keyword : CompoundKind → Text
  | struct => Text.ofString "parcelable"
  | union => Text.ofString "union"

namespace AidlBody

/-- The lines between a file's documentation and its declaration. -/
def preface : AidlBody → List Text
  | interface super mixesOneway _ _ _ =>
    (match super with
      | some name =>
        [Text.ofString "// Interface inherits from " ++ name.text ++
          Text.ofString " but AIDL does not support interface inheritance."]
      | none => []) ++
    if mixesOneway then
      [Text.ofString "// Interface mixes oneway and blocking methods; " ++
        Text.ofString "AIDL cannot mark the whole interface oneway."]
    else []
  | compound _ _ => []

def keyword : AidlBody → Text
  | interface _ _ _ _ _ => Text.ofString "interface"
  | compound kind _ => kind.keyword

/-- The methods with an empty line between neighbours. -/
def methodSteps (o : Options) : List AidlMethod → List WritingStep
  | [] => []
  | [m] => (m.lines o).map .line
  | m :: rest => (m.lines o).map .line ++ .newline :: methodSteps o rest

def memberSteps (o : Options) : AidlBody → List WritingStep
  | interface _ _ comments _ methods =>
    comments.map .line ++ (if comments.isEmpty then [] else [.newline]) ++ methodSteps o methods
  | compound _ fields => (fields.flatMap AidlField.lines).map .line

def notes : AidlBody → List Text
  | interface _ _ _ notes methods => notes ++ methods.flatMap AidlMethod.notes
  | compound _ _ => []

def breaks (o : Options) : AidlBody → List LineBreak
  | interface _ _ _ _ methods => methods.flatMap fun m => (m.signature o).breaks
  | compound _ _ => []

end AidlBody

namespace AidlFile

/-- The header, package and imports at the top of a file. -/
def topSteps (o : Options) (f : AidlFile) : List WritingStep :=
  (if o.headerComment.isEmpty then [] else [.line o.headerComment, .newline]) ++
    [.line (Text.ofString "package " ++ f.source.aidlPackage ++ [';']), .newline] ++
    f.imports.map .line ++ (if f.imports.isEmpty then [] else [.newline])

def steps (o : Options) (f : AidlFile) : List WritingStep :=
  f.topSteps o ++ (docLines f.doc ++ f.body.preface).map .line ++
    .line (f.body.keyword ++ ' ' :: f.source.aidlName ++ Text.ofString " \x7b") :: .indent ::
    f.body.memberSteps o ++ [.dedent, .line ['\x7d']]

def text (o : Options) (f : AidlFile) : Text :=
  Pen.start.text o.indentWidth (f.steps o)

/-- The lines for the conversion log: that the declaration was converted, then the notes on its
members. -/
def notes (f : AidlFile) : List Text :=
  (Text.ofString "Converted " ++ f.source.text ++ Text.ofString " to " ++ f.source.aidl) ::
    f.body.notes.map fun note => f.source.aidl ++ Text.ofString ": " ++ note

end AidlFile

end FlatAidl
