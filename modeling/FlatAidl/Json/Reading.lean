import FlatAidl.Json.Token

/-!
Reading JSON text. The tokens are taken one by one; arrays and objects part way through wait on a
stack, so a text of any depth is read.
-/

namespace FlatAidl

namespace Json

/-- An array or object part way through, its contents so far in reverse; an object waits for the
value of a member whose name was read. -/
inductive Frame where
  | array (items : List Json)
  | object (members : List (Option Text × Json)) (name : Option Text)

/-- What may follow, with the containers part way through around it, the innermost first. -/
inductive Expectation where
  /-- A value. -/
  | value (outer : List Frame)
  /-- The first item of an array, or its end. -/
  | item (outer : List Frame)
  /-- A member's name, or the end of the object if it is still empty. -/
  | member (members : List (Option Text × Json)) (first : Bool) (outer : List Frame)
  /-- The colon behind a member's name. -/
  | colon (members : List (Option Text × Json)) (name : Option Text) (outer : List Frame)
  /-- A comma behind an item, or the end of the array. -/
  | moreItems (items : List Json) (outer : List Frame)
  /-- A comma behind a member, or the end of the object. -/
  | moreMembers (members : List (Option Text × Json)) (outer : List Frame)
  /-- Nothing: the value is complete. -/
  | nothing (value : Json)

namespace Expectation

def afterValue (v : Json) : List Frame → Expectation
  | [] => .nothing v
  | .array items :: outer => .moreItems (v :: items) outer
  | .object members name :: outer => .moreMembers ((name, v) :: members) outer

/-- What may follow a token where a value is expected. -/
def startValue (outer : List Frame) : Token → Option Expectation
  | .null => some (afterValue .null outer)
  | .bool b => some (afterValue (.bool b) outer)
  | .number literal => some (afterValue (.number literal) outer)
  | .string content => some (afterValue (.string content) outer)
  | .arrayOpen => some (.item outer)
  | .objectOpen => some (.member [] true outer)
  | _ => none

def next : Expectation → Token → Option Expectation
  | .value outer, token => startValue outer token
  | .item outer, .arrayClose => some (afterValue (.array []) outer)
  | .item outer, token => startValue (.array [] :: outer) token
  | .member members _ outer, .string content => some (.colon members content outer)
  | .member _ true outer, .objectClose => some (afterValue (.object []) outer)
  | .colon members name outer, .colon => some (.value (.object members name :: outer))
  | .moreItems items outer, .comma => some (.value (.array items :: outer))
  | .moreItems items outer, .arrayClose => some (afterValue (.array items.reverse) outer)
  | .moreMembers members outer, .comma => some (.member members false outer)
  | .moreMembers members outer, .objectClose => some (afterValue (.object members.reverse) outer)
  | _, _ => none

end Expectation

def ofTokens? (tokens : List Token) : Option Json :=
  match tokens.foldlM Expectation.next (.value []) with
  | some (.nothing v) => some v
  | _ => none

def read? (t : Text) : Option Json :=
  (tokens? t).bind ofTokens?

end Json

end FlatAidl
