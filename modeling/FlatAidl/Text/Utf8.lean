import FlatAidl.Text.Basic

/-!
UTF-8. Reading is strict: overlong forms, surrogates, code points above the last one and cut-off
sequences are refused, so a byte sequence is the encoding of at most one text.
-/

namespace FlatAidl

abbrev Bytes := List UInt8

namespace Utf8

def encode (t : Text) : Bytes :=
  t.flatMap String.utf8EncodeChar

def tail? (b : UInt8) : Option Nat :=
  if 0x80 ≤ b.toNat && b.toNat ≤ 0xBF then some (b.toNat - 0x80) else none

/-- The character of a code point in a range that has no surrogate. -/
def within? (low high n : Nat) : Option Char :=
  if low ≤ n && n ≤ high && !(0xD800 ≤ n && n ≤ 0xDFFF) then some (Char.ofNat n) else none

def two? (a b : UInt8) : Option Char := do
  if 0xC0 ≤ a.toNat && a.toNat ≤ 0xDF then
    within? 0x80 0x7FF ((a.toNat - 0xC0) * 64 + (← tail? b))
  else none

def three? (a b c : UInt8) : Option Char := do
  if 0xE0 ≤ a.toNat && a.toNat ≤ 0xEF then
    within? 0x800 0xFFFF (((a.toNat - 0xE0) * 64 + (← tail? b)) * 64 + (← tail? c))
  else none

def four? (a b c d : UInt8) : Option Char := do
  if 0xF0 ≤ a.toNat && a.toNat ≤ 0xF7 then
    within? 0x10000 0x10FFFF
      ((((a.toNat - 0xF0) * 64 + (← tail? b)) * 64 + (← tail? c)) * 64 + (← tail? d))
  else none

/-- The text that a byte sequence is the encoding of. -/
def decode? : Bytes → Option Text
  | [] => some []
  | a :: rest =>
    if a.toNat < 0x80 then (decode? rest).map (Char.ofNat a.toNat :: ·)
    else match rest with
      | [] => none
      | b :: rest =>
        match two? a b with
        | some x => (decode? rest).map (x :: ·)
        | none => match rest with
          | [] => none
          | c :: rest =>
            match three? a b c with
            | some x => (decode? rest).map (x :: ·)
            | none => match rest with
              | [] => none
              | d :: rest =>
                match four? a b c d with
                | some x => (decode? rest).map (x :: ·)
                | none => none

end Utf8

end FlatAidl
