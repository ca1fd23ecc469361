import FlatAidl.Path.Basic
import FlatAidl.Text.Decimal

/-!
The command line. Options have a long or a short name and a value, attached or in the next argument;
every other argument is a target, and behind `--` all are. An option's value is checked once the
argument after it is at hand, so of two faults the first to be looked at decides.
-/

namespace FlatAidl

/-- What the command line says; all that may be left out is optional. -/
structure Arguments where
  output : Path
  models : List Path
  config : Option Path
  maxLineLength : Option Nat
  headerComment : Option Text
  indentWidth : Option Nat
  jobs : Option Nat
  targets : List Text
deriving DecidableEq

inductive ArgumentError where
  | missingRequired
  | valueValidation
  | invalidValue
  | unknownArgument
  | conflict
  | tooManyValues
  | displayHelp
  | displayVersion
deriving DecidableEq

namespace Arguments

inductive OptionName where
  | output | model | config | maxLineLength | headerComment | indentWidth | jobs
deriving DecidableEq

inductive Flag where
  | valued (name : OptionName)
  | help
  | version
deriving DecidableEq

def longFlags : List (String × Flag) :=
  [("output", .valued .output), ("model", .valued .model), ("config", .valued .config),
    ("max-line-length", .valued .maxLineLength), ("header-comment", .valued .headerComment),
    ("indent-width", .valued .indentWidth), ("jobs", .valued .jobs), ("help", .help),
    ("version", .version)]

def longFlag? (name : Text) : Option Flag :=
  (longFlags.find? fun entry => Text.ofString entry.1 == name).map Prod.snd

def shortFlag? : Char → Option Flag
  | 'o' => some (.valued .output)
  | 'm' => some (.valued .model)
  | 'j' => some (.valued .jobs)
  | 'h' => some .help
  | 'V' => some .version
  | _ => none

structure Reading where
  output : Option Path
  models : List Path
  config : Option Path
  maxLineLength : Option Nat
  headerComment : Option Text
  indentWidth : Option Nat
  jobs : Option Nat
  targets : List Text
  /-- An option that waits for its value, or for its value to be checked. -/
  pending : Option (OptionName × Option Text)
  /-- Whether all further arguments are targets. -/
  targetsOnly : Bool

namespace Reading

def start : Reading :=
  ⟨none, [], none, none, none, none, none, [], none, false⟩

/-- The number that a value denotes: digits, with a plus sign in front if one likes. -/
def count (value : Text) : Except ArgumentError Nat :=
  match Decimal.readSigned? Decimal.wordBound value with
  | some n => .ok n
  | none => .error .valueValidation

/-- The path that a value denotes; there is no empty path. -/
def path (value : Text) : Except ArgumentError Path :=
  if value.isEmpty then .error .invalidValue else .ok value

/-- Succeeds if an option that may be given once has not been given. -/
def unset {α : Type} : Option α → Except ArgumentError Unit
  | none => .ok ()
  | some _ => .error .conflict

def take (r : Reading) (name : OptionName) (value : Text) : Except ArgumentError Reading := do
  match name with
  | .output => do unset r.output; return { r with output := some (← path value) }
  | .model => return { r with models := r.models ++ [← path value] }
  | .config => do unset r.config; return { r with config := some (← path value) }
  | .maxLineLength => do
    unset r.maxLineLength; return { r with maxLineLength := some (← count value) }
  | .headerComment => do unset r.headerComment; return { r with headerComment := some value }
  | .indentWidth => do unset r.indentWidth; return { r with indentWidth := some (← count value) }
  | .jobs => do unset r.jobs; return { r with jobs := some (← count value) }

/-- Takes the option that waits, if one does; it needs a value by now. -/
def settle (r : Reading) : Except ArgumentError Reading :=
  match r.pending with
  | none => .ok r
  | some (_, none) => .error .invalidValue
  | some (name, some value) => { r with pending := none }.take name value

/-- Reads the name of an option, with the value attached to it if there is one. -/
def flag (r : Reading) (f : Flag) (attached : Option Text) : Except ArgumentError Reading := do
  let r ← r.settle
  match f with
  | .help => .error .displayHelp
  | .version => .error .displayVersion
  | .valued name =>
    match attached with
    | some value => r.take name value
    | none => return { r with pending := some (name, none) }

/-- A long option's name and its value, which stands behind an equals sign. -/
def splitLong (t : Text) : Text × Option Text :=
  match Text.cut? '=' t with
  | some (name, value) => (name, some value)
  | none => (t, none)

def longOption (r : Reading) (t : Text) : Except ArgumentError Reading :=
  match longFlag? (splitLong t).1, (splitLong t).2 with
  | none, _ => .error .unknownArgument
  | some .help, some _ => .error .tooManyValues
  | some .version, some _ => .error .tooManyValues
  | some f, attached => r.flag f attached

/-- The value behind a short option's name, with or without an equals sign. -/
def shortValue : Text → Option Text
  | [] => none
  | '=' :: value => some value
  | value => some value

def shortOption (r : Reading) (name : Char) (rest : Text) : Except ArgumentError Reading :=
  match shortFlag? name with
  | none => .error .unknownArgument
  | some f => r.flag f (shortValue rest)

def target (r : Reading) (t : Text) : Except ArgumentError Reading := do
  let r ← r.settle
  return { r with targets := r.targets ++ [t] }

/-- Reads an argument that is no option: a waiting option's value or a target. -/
def plain (r : Reading) (t : Text) : Except ArgumentError Reading :=
  match r.pending with
  | some (name, none) => .ok { r with pending := some (name, some t) }
  | _ => r.target t

def argument (r : Reading) (t : Text) : Except ArgumentError Reading :=
  if r.targetsOnly then r.target t
  else match t with
    | ['-', '-'] => .ok { r with targetsOnly := true }
    | '-' :: '-' :: rest => r.longOption rest
    | '-' :: name :: rest => r.shortOption name rest
    | _ => r.plain t

/-- The arguments that were read, if none is missing. -/
def finish (r : Reading) : Except ArgumentError Arguments := do
  let r ← r.settle
  match r.output with
  | some output =>
    if r.models.isEmpty || r.targets.isEmpty then .error .missingRequired
    else .ok ⟨output, r.models, r.config, r.maxLineLength, r.headerComment, r.indentWidth, r.jobs,
      r.targets⟩
  | none => .error .missingRequired

end Reading

def read (args : List Text) : Except ArgumentError Arguments := do
  (← args.foldlM Reading.argument Reading.start).finish

end Arguments

end FlatAidl
