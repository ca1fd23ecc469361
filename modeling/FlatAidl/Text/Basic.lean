/-!
Text as a sequence of characters, and the cuts that names, versions and comments are read with.
`pieces` separates at every place of a class and never gives an empty list; `cut?` and `cutAt?`
separate at the first place only, so what follows a second separator stays in the second part.
-/

namespace FlatAidl

/-- Text as its characters in order, so that a format is stated by recursion on it. -/
abbrev Text := List Char

namespace Text

/-- The parts before and after the first `c`. -/
def cut? (c : Char) : Text → Option (Text × Text)
  | [] => none
  | x :: rest =>
    if x = c then some ([], rest)
    else (cut? c rest).map fun parts => (x :: parts.1, parts.2)

/-- What follows `lead` in a text that starts with it. -/
def dropLead? : Text → Text → Option Text
  | [], t => some t
  | _ :: _, [] => none
  | a :: lead, x :: t => if a = x then dropLead? lead t else none

/-- The parts before and after the first place where `mark` stands. -/
def cutAt? (mark : Text) : Text → Option (Text × Text)
  | [] => (dropLead? mark []).map fun rest => ([], rest)
  | x :: t =>
    match dropLead? mark (x :: t) with
    | some rest => some ([], rest)
    | none => (cutAt? mark t).map fun parts => (x :: parts.1, parts.2)

/-- The runs between the characters that `sep` accepts; two neighbouring separators have an empty
run between them, and a text without any is one run. -/
def pieces (sep : Char → Bool) : Text → List Text
  | [] => [[]]
  | x :: rest =>
    if sep x then [] :: pieces sep rest
    else match pieces sep rest with
      | [] => [[x]]
      | run :: runs => (x :: run) :: runs

/-- The runs between occurrences of one character. -/
def split (c : Char) : Text → List Text :=
  pieces (· == c)

/-- The texts in order with `sep` between neighbours. -/
def join (sep : Text) : List Text → Text
  | [] => []
  | [t] => t
  | t :: u :: rest => t ++ sep ++ join sep (u :: rest)

/-- What precedes `tail` in a text that ends with it. -/
def dropTail? (tail t : Text) : Option Text :=
  (dropLead? tail.reverse t.reverse).map List.reverse

def endsWith (tail t : Text) : Bool :=
  (dropTail? tail t).isSome

def line (t : Text) : Text :=
  t ++ ['\n']

/-- A text given by a literal or by a program's outer layer. -/
def ofString (s : String) : Text :=
  s.toList

end Text

end FlatAidl
