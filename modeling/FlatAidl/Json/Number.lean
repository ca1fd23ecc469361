import FlatAidl.Json.Basic
import FlatAidl.Json.Double

/-!
The numerals of JSON: an optional minus sign, a whole part without leading zeros, and an optional
fraction and exponent, each with at least one digit. `isFinite` tells whether a numeral stands for a
number that a double holds; only very large ones do not.
-/

namespace FlatAidl

namespace Json

/-- A numeral in parts: whether it is negative, the digits of its whole part and of its fraction,
and its exponent with a sign. -/
structure Numeral where
  negative : Bool
  whole : Text
  fraction : Text
  exponentNegative : Bool
  exponent : Text
deriving DecidableEq

namespace Numeral

/-- A text without an optional first character of a class, and whether it was there. -/
def takeOne (p : Char → Bool) : Text → Bool × Text
  | [] => (false, [])
  | c :: rest => if p c then (true, rest) else (false, c :: rest)

def isWhole (digits : Text) : Bool :=
  match digits with
  | [] => false
  | ['0'] => true
  | first :: _ => first != '0'

/-- The exponent behind the fraction: its sign and its digits, both empty if there is none. -/
def readExponent? : Text → Option (Bool × Text)
  | [] => some (false, [])
  | e :: rest =>
    if e == 'e' || e == 'E' then
      let negative := rest.head? == some '-'
      let (_, digits) := takeOne (fun c => c == '-' || c == '+') rest
      if Decimal.isNumeral digits then some (negative, digits) else none
    else none

def read? (t : Text) : Option Numeral :=
  let (negative, t) := takeOne (· == '-') t
  let whole := t.takeWhile Char.isDigit
  if !isWhole whole then none
  else
    let (point, rest) := takeOne (· == '.') (t.dropWhile Char.isDigit)
    let fraction := if point then rest.takeWhile Char.isDigit else []
    let rest := if point then rest.dropWhile Char.isDigit else rest
    if point && fraction.isEmpty then none
    else (readExponent? rest).map fun e => ⟨negative, whole, fraction, e.1, e.2⟩

def signedExponent (n : Numeral) : Int :=
  if n.exponentNegative then -(Decimal.value n.exponent : Int) else Decimal.value n.exponent

def isFinite (n : Numeral) : Bool :=
  let (digits, exponent) := Double.significand n.whole n.fraction
  Double.holds digits (exponent + n.signedExponent)

end Numeral

def isNumeral (t : Text) : Bool :=
  (Numeral.read? t).isSome

/-- Whether a text is a numeral of a number that a double holds. -/
def isFinite (t : Text) : Bool :=
  (Numeral.read? t).any Numeral.isFinite

end Json

end FlatAidl
