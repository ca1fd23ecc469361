import FlatAidl.Diagnostics.Event
import FlatAidl.Emission.Basic
import FlatAidl.Text.Blank

/-!
The events of emitting a declaration and everything nested in it, in the order of the files, and the
filters that they pass.

A filter is a list of directives with commas between them. A directive sets a level for the targets
that start with a text, and may narrow them to events that have a field, or name a scope instead:
then it is about all that happens inside such scopes. Of the directives about an event's target the
most specific one decides; a scope lets through what any directive about it does, besides.
-/

namespace FlatAidl

/-- The least severe level that passes, if any does, for the targets that start with a text and have
the fields, or inside the scopes that do, of the given name if there is one. -/
structure Directive where
  target : Text
  scope : Option Text
  fields : List Text
  level : Option Level
deriving DecidableEq

namespace Directive

/-- A text with the letters of the ASCII alphabet in lower case. -/
def lowered (t : Text) : Text :=
  t.map Char.toLower

/-- The words for levels; `off` lets nothing pass. -/
def levels : List (String × Option Level) :=
  [("off", none), ("error", some .error), ("warn", some .warn), ("info", some .info),
    ("debug", some .debug), ("trace", some .trace)]

/-- The level that a word stands for, in any case, or a number: its place among the words. -/
def readLevel? (t : Text) : Option (Option Level) :=
  match Decimal.readSigned? Decimal.wordBound t with
  | some n => levels[n]?.map Prod.snd
  | none => (levels.find? fun entry => Text.ofString entry.1 == lowered t).map Prod.snd

/-- Whether a directive may start with a character, if not with a scope. -/
def isStart (c : Char) : Bool :=
  c.isAlphanum || c == '_' || c == ':' || c == '-'

/-- A directive with the level that ends its text: everything passes where no level is given. -/
def withLevel? (target : Text) (scope : Option Text) (fields : List Text) :
    Text → Option Directive
  | ['='] => some ⟨target, scope, fields, some .trace⟩
  | '=' :: level => (readLevel? level).map fun level => ⟨target, scope, fields, level⟩
  | rest => if rest.all Text.isBlank then some ⟨target, scope, fields, some .trace⟩ else none

/-- The directive about a target and the scope whose text follows: a name, a field in braces or
both, up to the closing bracket. A field may not be asked for with a value. -/
def readScope? (target t : Text) : Option Directive :=
  let isName (c : Char) : Bool := c != ']' && c != '\x7b'
  let name := t.takeWhile isName
  match t.dropWhile isName with
  | ']' :: rest => withLevel? target (some name) [] rest
  | '\x7b' :: rest =>
    match Text.cut? '\x7d' rest with
    | some (field, ']' :: rest) =>
      if field.isEmpty || field.contains '=' then none
      else withLevel? target (if name.isEmpty then none else some name) [field] rest
    | _ => none
  | _ => none

/-- The directive that a text denotes: a level for every target, or a target or a scope with its
level. -/
def read? (t : Text) : Option Directive :=
  let isTarget (c : Char) : Bool := c != '=' && c != '['
  let target := t.takeWhile isTarget
  if !(target.isEmpty || t.head?.any isStart) then none
  else match t.dropWhile isTarget with
    | [] =>
      match readLevel? target with
      | some level => some ⟨[], none, [], level⟩
      | none => some ⟨target, none, [], some .trace⟩
    | '[' :: rest => readScope? target rest
    | rest => if target.isEmpty then none else withLevel? target none [] rest

def concerns (d : Directive) (target : Text) : Bool :=
  (Text.dropLead? d.target target).isSome

/-- Whether all fields that a directive asks for are among the given ones. -/
def findsFields (d : Directive) (names : List Text) : Bool :=
  d.fields.all names.contains

def admits (d : Directive) (level : Level) : Bool :=
  d.level.any fun least => decide (level.rank ≤ least.rank)

/-- Whether a directive decides about events by their own target and fields. -/
def isAboutEvents (d : Directive) : Bool :=
  d.scope.isNone

/-- Whether a directive is about what happens inside the emission of a declaration. -/
def isAboutEmission (d : Directive) : Bool :=
  (d.scope.isSome || !d.fields.isEmpty) && d.concerns Event.fileTarget &&
    d.scope.all (· == Event.scopeName) && d.findsFields [Event.scopeField]

/-- How specific two directives about one target are: by the length of the target, then by the
fields. -/
def specificity (d e : Directive) : Ordering :=
  (compare d.target.length e.target.length).then (compare d.fields e.fields)

end Directive

structure Filter where
  directives : List Directive
deriving DecidableEq

namespace Filter

/-- The filter that a text denotes: parts that denote no directive are passed over, and without any
directive errors pass. -/
def read (t : Text) : Filter :=
  match ((Text.split ',' t).filter fun part => !part.isEmpty).filterMap Directive.read? with
  | [] => ⟨[⟨[], none, [], some .error⟩]⟩
  | directives => ⟨directives⟩

/-- The more specific directive of the two, of equally specific ones the second. -/
def closer : Option Directive → Directive → Option Directive
  | none, d => some d
  | some e, d => if d.specificity e == .lt then some e else some d

/-- Whether the most specific one of directives lets a level pass. -/
def decides (directives : List Directive) (level : Level) : Bool :=
  (directives.foldl closer none).any (·.admits level)

def admitsEvent (f : Filter) (e : Event) : Bool :=
  decides (f.directives.filter fun d =>
    d.isAboutEvents && d.concerns e.target && d.findsFields (e.fields.map Prod.fst)) e.level

/-- The directives about the emission of a declaration. -/
def aboutEmission (f : Filter) : List Directive :=
  f.directives.filter Directive.isAboutEmission

/-- Whether the emission of a declaration is itself of interest. It counts as information. -/
def admitsEmission (f : Filter) : Bool :=
  !f.aboutEmission.isEmpty ||
    decides (f.directives.filter fun d => d.isAboutEvents && d.concerns Event.fileTarget) .info

/-- Whether an event inside the emission of a declaration passes. -/
def admits (f : Filter) (e : Event) : Bool :=
  f.admitsEvent e || f.aboutEmission.any (·.admits e.level)

/-- The events of an emission that pass. They name the declarations they belong to only where the
emission of a declaration is itself of interest. -/
def apply (f : Filter) (events : List Event) : List Event :=
  (events.filter f.admits).map fun e => if f.admitsEmission then e else { e with within := [] }

end Filter

/-! ### The events of an emission -/

namespace Catalogue

/-- The events of one declaration's emission, which belongs to the declarations around it and to
itself. -/
def visitEvents (c : Catalogue) (o : Options) (visit : List DeclId × DeclId) :
    Except Fault (List Event) := do
  let within ← (visit.1 ++ [visit.2]).mapM fun id => (c.fetch id).map Declaration.name
  c.events o within visit.2

/-- The events that pass a filter while a declaration is emitted without any refusal. -/
def traceEmission (c : Catalogue) (o : Options) (f : Filter) (id : DeclId) :
    Except Fault (List Event) := do
  let events ← (c.visits id).mapM (c.visitEvents o)
  return f.apply events.flatten

end Catalogue

end FlatAidl
