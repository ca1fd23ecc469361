import FlatAidl.Json.Basic

/-!
Writing JSON without white space. Only quotes, backslashes and control characters are escaped.
-/

namespace FlatAidl

namespace Json

def hexDigit (n : Nat) : Char :=
  if n < 10 then Char.ofNat ('0'.toNat + n) else Char.ofNat ('a'.toNat + n - 10)

def escaped (c : Char) : Text :=
  if c = '"' then ['\\', '"']
  else if c = '\\' then ['\\', '\\']
  else if c = '\n' then ['\\', 'n']
  else if c = '\r' then ['\\', 'r']
  else if c = '\t' then ['\\', 't']
  else if c = '\x08' then ['\\', 'b']
  else if c = '\x0c' then ['\\', 'f']
  else if c.toNat < 0x20 then
    ['\\', 'u', '0', '0', hexDigit (c.toNat / 16), hexDigit (c.toNat % 16)]
  else [c]

def quoted (content : Option Text) : Text :=
  '"' :: (content.getD []).flatMap escaped ++ ['"']

mutual

def write : Json → Text
  | .null => Text.ofString "null"
  | .bool true => Text.ofString "true"
  | .bool false => Text.ofString "false"
  | .number literal => literal
  | .string content => quoted content
  | .array items => '[' :: writeItems items ++ [']']
  | .object members => '\x7b' :: writeMembers members ++ ['\x7d']

def writeItems : List Json → Text
  | [] => []
  | [item] => item.write
  | item :: rest => item.write ++ ',' :: writeItems rest

def writeMembers : List (Option Text × Json) → Text
  | [] => []
  | [(name, value)] => quoted name ++ ':' :: value.write
  | (name, value) :: rest => quoted name ++ ':' :: value.write ++ ',' :: writeMembers rest

end

end Json

end FlatAidl
