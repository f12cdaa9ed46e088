import ZigNif.Span

/-!
# BuildError — why a build was given up

Every failure of a build that has a cause in its input is a `BuildError`: a reason code, one
sentence, the place in the author's files, and notes.
-/

namespace ZigNif

/-- A failure of one module's build. -/
structure BuildError where
  reason : Text
  message : Text
  span : Span := {}
  module : Option Text := none
  nif : Option Text := none
  notes : List Text := []
  deriving DecidableEq, Repr

namespace BuildError

/-! ## Reason codes -/

def configReason : Text := "config"
def dependencyReason : Text := "dependency"
def missingReason : Text := "nif-missing"
def emptyReason : Text := "no-nifs"
def compileReason : Text := "compile"
def parseReason : Text := "parse"

/-- An error in the author's configuration. -/
def config (message : Text) (span : Span) (module : Option Text := none) : BuildError :=
  { reason := configReason, message, span, module }

/-- The error as one line for a reader, with a line for every note. -/
def format (e : BuildError) : Text :=
  let place := if e.span.isKnown then [e.span.format ++ ":"] else []
  let module := match e.module with
    | none | some [] => []
    | some m => ["(module " ++ m ++ ")"]
  Text.joined " " (place ++ ["[" ++ e.reason ++ "]"] ++ module ++ [e.message]) ++
    e.notes.flatMap fun note => ("\n  note: " : Text) ++ note

end BuildError

end ZigNif
