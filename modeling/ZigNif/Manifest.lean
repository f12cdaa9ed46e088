import ZigNif.Span
import ZigNif.Text.Blank
import ZigNif.Text.Digit
import ZigNif.Text.Lines

/-!
# Manifest — where the lines of staged source come from

Staged source is put together from fragments.  A line that reads `// ref <file>:<line>` says that
the lines after it, up to the next such line, are the lines of that file from that line on.  Lines
before the first marker are the module's own.  A line number that is too long spoils the manifest.
-/

namespace ZigNif

/-- A run of staged lines that come from one file: the staged line it starts at, the file, and the
line of the file that stands there. -/
structure Segment where
  start : Nat
  file : Text
  line : Nat
  deriving DecidableEq, Repr

/-- The segments of a staged source in order, and the module's own file. -/
structure Manifest where
  file : Text
  segments : List Segment := []
  deriving DecidableEq, Repr

namespace Manifest

/-! ## Markers -/

/-- The parts of the text around its last colon. -/
def lastColon? (t : Text) : Option (Text × Text) :=
  let tail := (t.reverse.takeWhile (· != ':')).reverse
  if tail.length = t.length then none else some (t.take (t.length - tail.length - 1), tail)

/-- The digits that a text consists of, apart from white space after them. -/
def lineDigits? (t : Text) : Option Text :=
  let digits := t.takeWhile Text.isDigit
  if digits ≠ [] ∧ (t.dropWhile Text.isDigit).all Text.isBlank then some digits else none

/-- The text after `mark` and any white space before it. -/
def skipMark (mark t : Text) : Option Text :=
  let t := Text.trimStart t
  if mark.isPrefixOf t then some (t.drop mark.length) else none

/-- The file and the digits of the line that a marker names.  White space before the name of the
file is not part of it, except that a name may be the last of several blanks. -/
def marker? (line : Text) : Option (Text × Text) := do
  let rest ← (skipMark "//" line).bind (skipMark "ref")
  let blanks := rest.takeWhile Text.isBlank
  let (file, tail) ← lastColon? (rest.dropWhile Text.isBlank)
  let digits ← lineDigits? tail
  if blanks = [] then none
  else if file ≠ [] then some (file, digits)
  else if 2 ≤ blanks.length then some (blanks.drop (blanks.length - 1), digits)
  else none

/-- The segments of lines that are numbered from `n` on. -/
def segmentsFrom : Nat → List Text → Except Text.LongNumeral (List Segment)
  | _, [] => .ok []
  | n, l :: ls => match marker? l with
    | some (file, digits) => do
      let line ← Text.numeral digits
      let segments ← segmentsFrom (n + 1) ls
      pure (⟨n + 1, file, line⟩ :: segments)
    | none => segmentsFrom (n + 1) ls

/-- The manifest of a staged source. -/
def ofSource (file source : Text) : Except Text.LongNumeral Manifest := do
  let segments ← segmentsFrom 1 (Text.lines source)
  pure { file, segments }

/-! ## Places -/

/-- The last segment that starts at or before a staged line. -/
def segmentAt? (m : Manifest) (line : Int) : Option Segment :=
  (m.segments.takeWhile fun s => (s.start : Int) ≤ line).getLast?

/-- The place in the author's files of a staged line. -/
def resolve (m : Manifest) (line : Int) (column : Option Int) : Span :=
  match m.segmentAt? line with
  | none => { file := some m.file, line := some line, column }
  | some s => { file := some s.file, line := some (s.line + (line - s.start)), column }

end Manifest

end ZigNif
