import FlatAidl.Text.Decimal

/-!
The size of numbers in doubles. A decimal is the product of its digits and a power of ten. Of the
digits those in front count that a word of 64 bits holds, and both factors are rounded, so near the
greatest double the digits that are written decide whether the product is one still.
-/

namespace FlatAidl

namespace Json

namespace Double

/-- The nearest number of 53 binary digits with zeros behind them; of two the one whose 53 digits
are even. -/
def round (n : Nat) : Nat :=
  let unit := Nat.pow 2 (Nat.log2 n + 1 - 53)
  let low := n / unit * unit
  let rest := 2 * (n % unit)
  if rest < unit || (rest == unit && n / unit % 2 == 0) then low else low + unit

/-- The least number that rounds to no double: half a unit of the last place above the greatest
one. -/
def overflow : Nat :=
  Nat.pow 2 1024 - Nat.pow 2 970

/-- The greatest power of ten that is a double, rounded. -/
def greatestExponent : Nat := 308

/-- Whether the double nearest to a number times the one nearest to a power of ten is a double. -/
def holds (digits : Nat) (exponent : Int) : Bool :=
  if digits = 0 then true
  else if (greatestExponent : Int) < exponent then false
  else if exponent < 0 then true
  else decide (round digits * round (Nat.pow 10 exponent.toNat) < overflow)

/-- A number followed by digits, as far as it stays in a word, and the digits that are left. -/
def appendDigits (n : Nat) : Text → Nat × Text
  | [] => (n, [])
  | c :: rest =>
    let longer := 10 * n + Decimal.digit c
    if longer < Decimal.wordBound then appendDigits longer rest else (n, c :: rest)

/-- The digits that count of a whole part and a fraction, as a number, and the power of ten that
belongs to it: what is left of the whole part stands for zeros, what is left of the fraction for
nothing. -/
def significand (whole fraction : Text) : Nat × Int :=
  let (n, wholeLeft) := appendDigits 0 whole
  let (n, fractionLeft) := appendDigits n fraction
  (n, (wholeLeft.length : Int) + fractionLeft.length - fraction.length)

end Double

end Json

end FlatAidl
