import FlatAidl.Text.Basic

/-!
White space, as the Unicode property `White_Space` has it, and the trimming and word splitting
that rest on it. A trimmed text neither starts nor ends with a blank, and a word holds none.
-/

namespace FlatAidl

namespace Text

/-- The characters with the Unicode property `White_Space`. -/
def isBlank (c : Char) : Bool :=
  let n := c.toNat
  (0x0009 ≤ n && n ≤ 0x000D) || n == 0x0020 || n == 0x0085 || n == 0x00A0 || n == 0x1680 ||
    (0x2000 ≤ n && n ≤ 0x200A) || n == 0x2028 || n == 0x2029 || n == 0x202F || n == 0x205F ||
    n == 0x3000

def trimStart : Text → Text
  | [] => []
  | c :: rest => if isBlank c then trimStart rest else c :: rest

def trimEnd : Text → Text
  | [] => []
  | c :: rest =>
    match trimEnd rest with
    | [] => if isBlank c then [] else [c]
    | kept => c :: kept

def trim (t : Text) : Text :=
  trimEnd (trimStart t)

def words (t : Text) : List Text :=
  (pieces isBlank t).filter fun run => !run.isEmpty

end Text

end FlatAidl
