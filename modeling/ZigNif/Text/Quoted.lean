import ZigNif.Text.Printable

/-!
# Text/Quoted — a text between quotes, as messages show it

The quote is an apostrophe, or a double quote if that saves escaping.  The quote itself and the
backslash are escaped, and so is every character that is not printable.
-/

namespace ZigNif.Text

/-- The quote around a text: apostrophes, unless it holds one and no double quote. -/
def quoteMark (t : Text) : Char := if '\'' ∈ t ∧ '"' ∉ t then '"' else '\''

/-- A character between two `mark`s: escaped if it is the mark, a backslash or not printable. -/
def quotedChar (mark c : Char) : Text :=
  if c = mark ∨ c = '\\' then ['\\', c]
  else if c = '\n' then "\\n"
  else if c = '\r' then "\\r"
  else if c = '\t' then "\\t"
  else if isPrintable c then [c]
  else if c.toNat < 0x100 then "\\x" ++ hex 2 c.toNat
  else if c.toNat < 0x10000 then "\\u" ++ hex 4 c.toNat
  else "\\U" ++ hex 8 c.toNat

/-- The text between quotes. -/
def quoted (t : Text) : Text :=
  let mark := quoteMark t
  mark :: t.flatMap (quotedChar mark) ++ [mark]

end ZigNif.Text
