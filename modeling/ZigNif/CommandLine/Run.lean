import ZigNif.CommandLine.Invocation
import ZigNif.Config
import ZigNif.Format
import ZigNif.Pipeline

/-!
# CommandLine/Run — carrying out a request

A request is answered by an exit code and two texts, the output and the error messages.  Everything
that is reported as JSON has its keys in order and no space between its parts.
-/

namespace ZigNif.CommandLine

/-- What the program answers. -/
structure Answer where
  code : Nat := 0
  output : Text := []
  errors : Text := []
  deriving DecidableEq, Repr

/-! ## Reports -/

/-- A text that may be missing, as JSON. -/
def optionalText : Option Text → Json
  | none => .null
  | some t => .str t

/-- An integer that may be missing, as JSON. -/
def optionalInt : Option Int → Json
  | none => .null
  | some n => .int n

/-- An array of texts as JSON. -/
def textArray (ts : List Text) : Json := .arr (ts.map .str)

/-- A span as JSON. -/
def spanReport (s : Span) : Json := .obj
  [("column", optionalInt s.column), ("file", optionalText s.file), ("line", optionalInt s.line)]

/-- A build error as JSON. -/
def errorReport (e : BuildError) : Json := .obj
  [("message", .str e.message), ("module", optionalText e.module), ("nif", optionalText e.nif),
    ("notes", textArray e.notes), ("reason_code", .str e.reason), ("span", spanReport e.span)]

/-- A nif as JSON. -/
def nifReport (n : Nif) : Json := .obj
  [("arity", .int n.arity), ("concurrency", .str n.mode.name), ("doc", optionalText n.doc),
    ("name", .str n.name)]

/-- A module that has been built as JSON. -/
def moduleReport (m : Module) : Json := .obj
  [("dependencies", textArray (Text.sorted m.dependencies)),
    ("library_path", optionalText m.libraryPath), ("module", .str m.name),
    ("nifs", .arr (m.nifs.map nifReport)),
    ("resources", textArray (m.resources.map Resource.name)),
    ("status", .str "rendered")]

/-- A JSON value on a line of its own. -/
def jsonLine (v : Json) : Text := Json.writeWith Json.compact v ++ ['\n']

/-- The answer to a request that a build error stops, if the error can be written. -/
def rejection (isJson : Bool) (e : BuildError) : Build Answer := do
  if !e.span.isWritable then throw (.longNumeral .written)
  else if isJson then
    return { code := 2
             output := jsonLine (.obj [("error", errorReport e), ("status", .str "aborted")]) }
  else return { code := 2, errors := e.format ++ "\n" }

/-- The result of `b`, or the build error that stops it. -/
def attempt {α : Type} (b : Build α) : Build (Except BuildError α) :=
  tryCatch (Except.ok <$> b) fun failure => match failure with
    | .build e => pure (.error e)
    | _ => throw failure

/-! ## Requests -/

/-- Carries out a build. -/
def build (r : BuildRequest) : Build Answer := do
  let prepared ← attempt do
    let options ← Config.load r.config
    pure (options, ← Toolchain.find r.zig r.stagingRoot)
  match prepared with
  | .error e => rejection r.isJson e
  | .ok (options, toolchain) =>
    match ← Pipeline.run toolchain options with
    | .aborted e => rejection r.isJson e
    | .rendered compiled =>
      match r.out with
      | .output => pure ()
      | .nameless => throw .namelessOutput
      | .file path =>
        Build.makeDirectories path.parent
        Build.writeText path compiled.rendered
      if r.isJson then return { output := jsonLine (moduleReport compiled.module) }
      else if r.out = .output then return { output := compiled.rendered }
      else return {}

/-- The names of the files that a source file imports, directly or through others. -/
def dependencies (source : Path) : Build (List Text) := do
  let text ← Build.readText source
  let limit := (← read).stack.groups
  let parsed ← Build.ofExcept (Source.parseFileWithin limit (some source.text) text)
  Build.imports source.text parsed

/-- Lists the files that a source imports. -/
def deps (r : DepsRequest) : Build Answer :=
  tryCatch
    (do
      let names ← dependencies r.source
      if r.isJson then return { output := Json.write (textArray names) ++ "\n" }
      else return { output := names.flatMap (· ++ ['\n']) })
    fun failure => match failure, Build.readFault? failure with
      | .build e, _ => rejection r.isJson e
      | _, some why =>
        return { code := 2, errors := "cannot read " ++ r.source.text ++ ": " ++ why ++ "\n" }
      | _, none => throw failure

/-- Formats files. -/
def format (r : FormatRequest) : Build Answer := do
  match ← attempt (Toolchain.find r.zig none) with
  | .error e => rejection false e
  | .ok toolchain =>
    let mut output : Text := []
    for path in r.paths do
      if ← Format.file toolchain path then
        output := output ++ "formatted " ++ path.text ++ "\n"
    return { output }

/-- Carries out a request. -/
def Request.run : Request → Build Answer
  | build r => CommandLine.build r
  | deps r => CommandLine.deps r
  | format r => CommandLine.format r

/-- A line of the log as it is printed. -/
def logText (l : LogLine) : Text := "nifbind." ++ l.topic ++ ": " ++ l.message ++ "\n"

/-- Carries out an invocation; the log comes before the error messages. -/
def Invocation.run (i : Invocation) : Build Answer := do
  let answer ← i.request.run
  if i.isVerbose then
    return { answer with errors := (← get).log.flatMap logText ++ answer.errors }
  else return answer

end ZigNif.CommandLine
