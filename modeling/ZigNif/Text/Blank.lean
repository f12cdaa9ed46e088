import ZigNif.Text.Basic

/-!
# Text/Blank — white space

White space is the Unicode property together with the four information separators; it is wider
than core's class, which knows ASCII only.
-/

namespace ZigNif.Text

/-- White space: tab to carriage return, the information separators, space, next line, and the
characters of the Unicode separator classes. -/
def isBlank (c : Char) : Bool :=
  let n := c.toNat
  (9 ≤ n && n ≤ 13) || (28 ≤ n && n ≤ 32) || n == 0x85 || n == 0xa0 || n == 0x1680 ||
  (0x2000 ≤ n && n ≤ 0x200a) || n == 0x2028 || n == 0x2029 || n == 0x202f || n == 0x205f ||
  n == 0x3000

/-- The text without white space at its start. -/
def trimStart (t : Text) : Text := t.dropWhile isBlank

/-- The text without white space at its end. -/
def trimEnd (t : Text) : Text := dropEndWhile isBlank t

/-- The text without white space at either end. -/
def trim (t : Text) : Text := trimEnd (trimStart t)

end ZigNif.Text
