import FlatAidl.Text.Basic

/-!
Natural numbers in decimal notation. Writing uses no leading zeros; reading takes any non-empty run
of ASCII digits whose value stays below a bound, leading zeros included, and nothing else.
-/

namespace FlatAidl

namespace Decimal

def write (n : Nat) : Text :=
  Nat.toDigits 10 n

/-- Whether a text is a non-empty run of ASCII digits. -/
def isNumeral (t : Text) : Bool :=
  !t.isEmpty && t.all Char.isDigit

def digit (c : Char) : Nat :=
  c.toNat - '0'.toNat

def value (t : Text) : Nat :=
  t.foldl (fun n c => 10 * n + digit c) 0

/-- Numbers in a word of 64 bits stay below this bound. -/
def wordBound : Nat := 0x10000000000000000

/-- The number that a numeral denotes, if it is below `bound`. -/
def read? (bound : Nat) (t : Text) : Option Nat :=
  if isNumeral t && decide (value t < bound) then some (value t) else none

/-- The number that a numeral denotes, with a plus sign in front if one likes. -/
def readSigned? (bound : Nat) : Text → Option Nat
  | '+' :: t => read? bound t
  | t => read? bound t

end Decimal

end FlatAidl
