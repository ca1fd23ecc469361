import FlatAidl.Text.Decimal

/-!
JSON values. An object keeps its members in order and keeps repeated names, a number keeps the
digits it was written with, and a string whose escapes name half of a surrogate pair is kept as a
string without text. What such a value means is left to whoever reads it.
-/

namespace FlatAidl

inductive Json where
  | null
  | bool (b : Bool)
  | number (literal : Text)
  | string (content : Option Text)
  | array (items : List Json)
  | object (members : List (Option Text × Json))

namespace Json

def text (t : Text) : Json :=
  .string (some t)

def natural (n : Nat) : Json :=
  .number (Decimal.write n)

/-- The natural number that is written in digits only. -/
def natural? : Json → Option Nat
  | .number literal => Decimal.read? Decimal.wordBound literal
  | _ => none

def text? : Json → Option Text
  | .string content => content
  | _ => none

mutual

/-- How deep arrays and objects stand in each other. -/
def depth : Json → Nat
  | .array items => depthOfItems items + 1
  | .object members => depthOfMembers members + 1
  | _ => 0

def depthOfItems : List Json → Nat
  | [] => 0
  | item :: rest => max item.depth (depthOfItems rest)

def depthOfMembers : List (Option Text × Json) → Nat
  | [] => 0
  | (_, value) :: rest => max value.depth (depthOfMembers rest)

end

mutual

/-- Whether a test holds of every string and of every number of a value, member names included. -/
def allLeaves (string : Option Text → Bool) (number : Text → Bool) : Json → Bool
  | .string content => string content
  | .number literal => number literal
  | .array items => allItems string number items
  | .object members => allMembers string number members
  | _ => true

def allItems (string : Option Text → Bool) (number : Text → Bool) : List Json → Bool
  | [] => true
  | item :: rest => item.allLeaves string number && allItems string number rest

def allMembers (string : Option Text → Bool) (number : Text → Bool) :
    List (Option Text × Json) → Bool
  | [] => true
  | (name, value) :: rest =>
    string name && value.allLeaves string number && allMembers string number rest

end

end Json

end FlatAidl
