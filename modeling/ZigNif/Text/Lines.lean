import ZigNif.Text.Basic

/-!
# Text/Lines — cutting text into lines

A line ends at any of the Unicode line boundaries, and a carriage return with the newline after it
is one boundary.  The last line needs no boundary, so a text has no empty line after its last one.
-/

namespace ZigNif.Text

/-- The characters that end a line. -/
def isLineEnd (c : Char) : Bool :=
  let n := c.toNat
  (10 ≤ n && n ≤ 13) || (28 ≤ n && n ≤ 30) || n == 0x85 || n == 0x2028 || n == 0x2029

/-- The lines with `c` put in front of the first one. -/
def pushFront (c : Char) : List Text → List Text
  | [] => [[c]]
  | l :: ls => (c :: l) :: ls

/-- The lines of a text, without their boundaries. -/
def lines : Text → List Text
  | [] => []
  | '\r' :: '\n' :: r => [] :: lines r
  | c :: r => if isLineEnd c then [] :: lines r else pushFront c (lines r)

/-- Every line boundary of a foreign text file, `\r\n` or `\r`, read as a newline. -/
def unifyNewlines : Text → Text
  | [] => []
  | '\r' :: '\n' :: r => '\n' :: unifyNewlines r
  | c :: r => (if c = '\r' then '\n' else c) :: unifyNewlines r

end ZigNif.Text
