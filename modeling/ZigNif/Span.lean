import ZigNif.Text.Digit

/-!
# Span — places in the author's files

A span names a file, a line and a column as far as they are known.  Lines and columns are counted
from one where they come from a text, but a span may carry any integer.
-/

namespace ZigNif

/-- A place in a source file. -/
structure Span where
  file : Option Text := none
  line : Option Int := none
  column : Option Int := none
  deriving DecidableEq, Repr

namespace Span

/-- Whether the span says where anything is. -/
def isKnown (s : Span) : Bool := s.file.isSome || s.line.isSome

/-- The span as `file:line:column`, as far as it is known. -/
def format (s : Span) : Text :=
  let file : Text := match s.file with
    | none | some [] => "<unknown>"
    | some f => f
  match s.line, s.column with
  | none, _ => file
  | some l, none => file ++ ":" ++ Text.ofInt l
  | some l, some c => file ++ ":" ++ Text.ofInt l ++ ":" ++ Text.ofInt c

/-- Whether the numbers of the span are short enough to be written. -/
def isWritable (s : Span) : Bool := s.line.all Text.isWritable && s.column.all Text.isWritable

/-- A file name that says something. -/
def named : Option Text → Option Text
  | some [] => none
  | name => name

/-- The span of a place in a text that is known as `file`; a name that the place itself carries
counts if no other is given. -/
def located (file : Option Text) : Option Span → Span
  | none => { file }
  | some place => { place with file := named file <|> named place.file }

end Span

end ZigNif
