import FlatAidl.Text.Basic

/-!
Text under indentation. The blanks of the current level go in front of the first character of every
line that has one, so an empty line stays empty; a change of the level counts from the next such
character on.
-/

namespace FlatAidl

inductive WritingStep where
  | text (t : Text)
  | indent
  | dedent
deriving DecidableEq

namespace WritingStep

def line (t : Text) : WritingStep :=
  .text (Text.line t)

def newline : WritingStep :=
  .text ['\n']

end WritingStep

/-- The level of indentation, and whether the next character starts a line. -/
structure Pen where
  level : Nat
  lineStart : Bool
deriving DecidableEq

namespace Pen

def start : Pen := ⟨0, true⟩

def column (width : Nat) (p : Pen) : Nat :=
  p.level * width

def put (width : Nat) (p : Pen) (c : Char) : Text :=
  if c = '\n' then [c]
  else if p.lineStart then List.replicate (p.column width) ' ' ++ [c]
  else [c]

def pass (p : Pen) (c : Char) : Pen :=
  { p with lineStart := c == '\n' }

/-- What a text adds under the indentation. -/
def write (width : Nat) (p : Pen) : Text → Text
  | [] => []
  | c :: rest => p.put width c ++ (p.pass c).write width rest

def apply (width : Nat) (p : Pen) : WritingStep → Text
  | .text t => p.write width t
  | .indent => []
  | .dedent => []

/-- The pen behind one step; there is no level below 0. -/
def after (p : Pen) : WritingStep → Pen
  | .text t => t.foldl pass p
  | .indent => { p with level := p.level + 1 }
  | .dedent => { p with level := p.level - 1 }

def text (width : Nat) (p : Pen) : List WritingStep → Text
  | [] => []
  | step :: rest => p.apply width step ++ (p.after step).text width rest

def balanced (level : Nat) : List WritingStep → Bool
  | [] => true
  | .text _ :: rest => balanced level rest
  | .indent :: rest => balanced (level + 1) rest
  | .dedent :: rest => decide (0 < level) && balanced (level - 1) rest

end Pen

end FlatAidl
