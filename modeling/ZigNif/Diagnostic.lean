import ZigNif.BuildError
import ZigNif.Manifest
import ZigNif.Path

/-!
# Diagnostic — compiler messages in the author's coordinates

The compiler complains about places in the staged file.  A line of the form
`path:line:column: kind: message` is a diagnostic; if its path names the staged file, its place is
looked up in the manifest.  All other lines stay as they are.  A line or column number that is too
long to be read, or to be written after it was looked up, spoils the whole output.
-/

namespace ZigNif

/-- What a diagnostic is. -/
inductive Severity
  | error
  | note
  deriving DecidableEq, Repr

namespace Severity

def text : Severity → Text
  | error => "error"
  | note => "note"

end Severity

/-- A located message of the compiler. -/
structure Diagnostic where
  path : Text
  line : Nat
  column : Nat
  severity : Severity
  message : Text
  deriving DecidableEq, Repr

namespace Diagnostic

/-! ## Reading -/

/-- What follows the path of a diagnostic, the numbers still as digits. -/
structure Tail where
  line : Text
  column : Text
  severity : Severity
  message : Text
  deriving DecidableEq, Repr

/-- A colon, a run of digits, and what follows them. -/
def digits? (t : Text) : Option (Text × Text) := do
  let r ← Text.dropPrefix? ":" t
  let digits := r.takeWhile Text.isDigit
  if digits = [] then none else some (digits, r.dropWhile Text.isDigit)

/-- The tail that a text is, if it is one. -/
def tail? (t : Text) : Option Tail := do
  let (line, r) ← digits? t
  let (column, r) ← digits? r
  match Text.dropPrefix? ": error: " r, Text.dropPrefix? ": note: " r with
  | some message, _ => some { line, column, severity := .error, message }
  | none, some message => some { line, column, severity := .note, message }
  | none, none => none

/-- The path and the tail of a text that stands after `path` (in reverse), the path ending as early
as possible. -/
def splitFrom (path : Text) : Text → Option (Text × Tail)
  | [] => none
  | c :: r => match tail? r with
    | some tail => some ((c :: path).reverse, tail)
    | none => splitFrom (c :: path) r

/-- The path and the tail of a line of output, if it is a diagnostic.  The path is not empty and as
short as possible. -/
def split? (line : Text) : Option (Text × Tail) := splitFrom [] line

/-- The diagnostic of a path and a tail, unless one of its numbers is too long. -/
def ofTail (path : Text) (t : Tail) : Except Text.LongNumeral Diagnostic := do
  let line ← Text.numeral t.line
  let column ← Text.numeral t.column
  pure { path, line, column, severity := t.severity, message := t.message }

/-! ## Remapping -/

/-- Where a diagnostic points, in the author's files if it is about the staged file. -/
def span (stagedName : Option Text) (manifest : Option Manifest) (d : Diagnostic) : Span :=
  match manifest, stagedName with
  | some m, some name =>
    if (Path.ofText d.path).name = name then m.resolve d.line (some (d.column : Int))
    else { file := some d.path, line := some (d.line : Int), column := some (d.column : Int) }
  | _, _ => { file := some d.path, line := some (d.line : Int), column := some (d.column : Int) }

/-- The name by which output mentions a staged file. -/
def stagedName (stagedPath : Option Text) : Option Text :=
  (Span.named stagedPath).map fun path => (Path.ofText path).name

/-- A line of output with its place remapped, and that place if the line is an error. -/
def remapLine (staged : Option Text) (manifest : Option Manifest) (line : Text) :
    Except Text.LongNumeral (Text × Option Span) :=
  match split? line with
  | none => .ok (line, none)
  | some (path, tail) => do
    let d ← ofTail path tail
    let place := d.span staged manifest
    if !place.isWritable then throw .written
    pure (place.format ++ ": " ++ d.severity.text ++ ": " ++ d.message,
      if d.severity = .error then some place else none)

/-- The output with all places remapped, and the place of the first error in it. -/
def remap (output : Text) (stagedPath : Option Text) (manifest : Option Manifest) :
    Except Text.LongNumeral (Text × Option Span) := do
  let lines ← (Text.lines output).mapM (remapLine (stagedName stagedPath) manifest)
  pure (Text.unlines (lines.map Prod.fst), lines.findSome? Prod.snd)

/-! ## Compiler errors -/

/-- The mark in front of an error's message. -/
def errorMark : Text := ": error: "

/-- The error of a failed run of the compiler: its message is that of the first line that looks like
an error, and its notes are the lines of the output. -/
def failure (what output : Text) (module file : Text) (stagedPath : Option Text)
    (manifest : Option Manifest) : Except Text.LongNumeral BuildError := do
  let (text, span) ← remap output stagedPath manifest
  let lines := (Text.lines text).filter fun l => Text.trim l ≠ []
  let message : Text := match lines.findSome? (Text.after? errorMark) with
    | some first => ": " ++ first
    | none => []
  pure
    { reason := BuildError.compileReason
      message := "zig " ++ what ++ " failed" ++ message
      span := span.getD { file := some file }
      module := some module
      notes := lines }

end Diagnostic

end ZigNif
