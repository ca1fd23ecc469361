import FlatAidl.Json.Number

/-!
The tokens of JSON. White space between tokens is a blank, a tab or a line end; a string holds no
control character unescaped; a run of the characters of numerals has to be one numeral.
-/

namespace FlatAidl

namespace Json

inductive Token where
  | arrayOpen
  | arrayClose
  | objectOpen
  | objectClose
  | colon
  | comma
  | null
  | bool (b : Bool)
  | number (literal : Text)
  | string (content : Option Text)
deriving DecidableEq

/-- A character of a string, or a sixteen-bit unit given by its digits. -/
inductive Unit16 where
  | char (c : Char)
  | code (n : Nat)
deriving DecidableEq

namespace Unit16

def isHigh (n : Nat) : Bool :=
  0xD800 ≤ n && n ≤ 0xDBFF

def isLow (n : Nat) : Bool :=
  0xDC00 ≤ n && n ≤ 0xDFFF

/-- The text of characters and units, if every surrogate is half of a pair. -/
def toText? : List Unit16 → Option Text
  | [] => some []
  | .char c :: rest => (toText? rest).map (c :: ·)
  | .code n :: rest =>
    if isLow n then none
    else if isHigh n then
      match rest with
      | .code m :: rest =>
        if isLow m then
          (toText? rest).map (Char.ofNat (0x10000 + (n - 0xD800) * 0x400 + (m - 0xDC00)) :: ·)
        else none
      | _ => none
    else (toText? rest).map (Char.ofNat n :: ·)

end Unit16

def hexDigit? (c : Char) : Option Nat :=
  if '0' ≤ c && c ≤ '9' then some (c.toNat - '0'.toNat)
  else if 'a' ≤ c && c ≤ 'f' then some (c.toNat - 'a'.toNat + 10)
  else if 'A' ≤ c && c ≤ 'F' then some (c.toNat - 'A'.toNat + 10)
  else none

def hexUnit? (a b c d : Char) : Option Nat := do
  return (((← hexDigit? a) * 16 + (← hexDigit? b)) * 16 + (← hexDigit? c)) * 16 + (← hexDigit? d)

def escape? : Char → Option Char
  | '"' => some '"'
  | '\\' => some '\\'
  | '/' => some '/'
  | 'b' => some '\x08'
  | 'f' => some '\x0c'
  | 'n' => some '\n'
  | 'r' => some '\r'
  | 't' => some '\t'
  | _ => none

/-- The inside of a string up to its closing quote, and what follows. -/
def readQuoted : Text → Option (List Unit16 × Text)
  | [] => none
  | '"' :: rest => some ([], rest)
  | '\\' :: 'u' :: a :: b :: c :: d :: rest =>
    match hexUnit? a b c d, readQuoted rest with
    | some n, some (units, rest) => some (.code n :: units, rest)
    | _, _ => none
  | '\\' :: e :: rest =>
    match escape? e, readQuoted rest with
    | some c, some (units, rest) => some (.char c :: units, rest)
    | _, _ => none
  | c :: rest =>
    if c = '\\' || c.toNat < 0x20 then none
    else match readQuoted rest with
      | some (units, rest) => some (.char c :: units, rest)
      | none => none

/-- What follows a string is shorter than the string's start. -/
theorem readQuoted_length {t : Text} {units : List Unit16} {rest : Text}
    (h : readQuoted t = some (units, rest)) : rest.length < t.length := by
  fun_induction readQuoted t generalizing units rest <;>
    simp only [Option.some.injEq, Prod.mk.injEq, reduceCtorEq] at h <;>
    obtain ⟨-, rfl⟩ := h <;> simp only [List.length_cons]
  · omega
  all_goals
    rename_i shorter
    have := shorter ‹_›
    omega

def isSpace (c : Char) : Bool :=
  c == ' ' || c == '\t' || c == '\n' || c == '\r'

def isNumeralPart (c : Char) : Bool :=
  c.isDigit || c == '-' || c == '+' || c == '.' || c == 'e' || c == 'E'

def mark? : Char → Option Token
  | '[' => some .arrayOpen
  | ']' => some .arrayClose
  | '\x7b' => some .objectOpen
  | '\x7d' => some .objectClose
  | ':' => some .colon
  | ',' => some .comma
  | _ => none

/-- The word that starts with a character, and its token. -/
def word? : Char → Option (Text × Token)
  | 'n' => some (Text.ofString "ull", .null)
  | 't' => some (Text.ofString "rue", .bool true)
  | 'f' => some (Text.ofString "alse", .bool false)
  | _ => none

/-- What follows a word is no longer than before. -/
theorem dropLead_length {lead t rest : Text} (h : Text.dropLead? lead t = some rest) :
    rest.length ≤ t.length := by
  induction lead generalizing t with
  | nil => simp [Text.dropLead?] at h; simp [h]
  | cons a lead ih =>
    cases t with
    | nil => simp [Text.dropLead?] at h
    | cons x t =>
      simp only [Text.dropLead?] at h
      split at h
      · have := ih h; simp only [List.length_cons]; omega
      · simp at h

/-- The first token of a text that does not start with white space, and what follows. -/
def nextToken? (c : Char) (rest : Text) : Option (Token × { r : Text // r.length ≤ rest.length }) :=
  match mark? c with
  | some token => some (token, ⟨rest, Nat.le_refl _⟩)
  | none =>
    match word? c with
    | some (tail, token) =>
      match h : Text.dropLead? tail rest with
      | some r => some (token, ⟨r, dropLead_length h⟩)
      | none => none
    | none =>
      if c = '"' then
        match h : readQuoted rest with
        | some (units, r) =>
          some (.string (Unit16.toText? units), ⟨r, Nat.le_of_lt (readQuoted_length h)⟩)
        | none => none
      else if isNumeral (c :: rest.takeWhile isNumeralPart) then
        some (.number (c :: rest.takeWhile isNumeralPart),
          ⟨rest.dropWhile isNumeralPart, (List.dropWhile_sublist _).length_le⟩)
      else none

def tokens? : Text → Option (List Token)
  | [] => some []
  | c :: rest =>
    if isSpace c then tokens? rest
    else match nextToken? c rest with
      | none => none
      | some (token, r) => (tokens? r.1).map (token :: ·)
termination_by t => t.length
decreasing_by
  · simp
  · have := r.2
    simp only [List.length_cons]
    omega

end Json

end FlatAidl
