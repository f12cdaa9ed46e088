import ZigNif.Files.Tree
import ZigNif.Import.Closure
import ZigNif.Text.Lines

/-!
# Workspace — what a build works on

A build reads and changes a tree of files, runs the compiler, and keeps a log.  The compiler is a
function of the command it is given, so that a build as a whole is a function too.  What has been
done stays done when a build stops.
-/

namespace ZigNif

/-! ## The host -/

/-- A command that is run: its words, the directory it is started in, and its standard input. -/
structure Call where
  words : List Text
  directory : Option Text := none
  input : Option Text := none
  deriving DecidableEq, Repr

/-- What a command answers: its exit code and the texts it wrote.  If what it wrote is no text,
`fault` says why, and the texts say nothing. -/
structure Reply where
  code : Int := 0
  output : Text := []
  errors : Text := []
  fault : Option Utf8.Fault := none
  deriving DecidableEq, Repr

/-- The reply, if its texts can be read. -/
def Reply.read (r : Reply) : Except Failure Reply :=
  match r.fault with
  | some fault => .error (.encoding fault)
  | none => .ok r

/-- How deeply things can be nested before the interpreter runs out of stack: groups in an imported
file, directories below the sources, missing directories on the way to one that is made, and arrays
and objects in a report.  What is left of the stack depends on where a build is started from. -/
structure Stack where
  groups : Nat := 980
  folders : Nat := 980
  parents : Nat := 980
  values : Nat := 980
  deriving DecidableEq, Repr

/-- What stays the same during a build: the working directory, the directory for temporary files,
the author's environment, the interpreter's stack, and the compiler. -/
structure Host where
  here : Location
  temporary : Text
  envName : Option Text := none
  stagingRoot : Option Text := none
  zig : Option Text := none
  zigOnPath : Option Text := none
  stack : Stack := {}
  run : Call → Reply

namespace Host

/-- The working directory as a path. -/
def directory (h : Host) : Path := { root := .slash, names := h.here }

/-- The name of the environment that builds are for, unless they say otherwise. -/
def defaultEnv (h : Host) : Text := (Span.named h.envName).getD "dev"

/-- The directory that staging directories are made in, unless builds say otherwise. -/
def defaultRoot (h : Host) : Text := (Span.named h.stagingRoot).getD h.temporary

end Host

/-! ## The state of a build -/

/-- A line of the log: what it is about, and what it says. -/
structure LogLine where
  topic : Text
  message : Text
  deriving DecidableEq, Repr

/-- The files, the commands that were run, and the log. -/
structure Workspace where
  files : FileTree := .directory []
  calls : List Call := []
  log : List LogLine := []
  deriving Repr

/-- Something done in a workspace, that may fail. -/
abbrev Build := ReaderT Host (ExceptT Failure (StateM Workspace))

namespace Build

/-- The result of what was done, and the workspace after it. -/
def runIn {α : Type} (b : Build α) (h : Host) (w : Workspace) : Except Failure α × Workspace :=
  (b.run h).run.run w

/-- Adds a line to the log. -/
def note (topic message : Text) : Build Unit :=
  modify fun w => { w with log := w.log ++ [{ topic, message }] }

/-- What a reading of a value comes to. -/
def ofExcept {α : Type} : Except Failure α → Build α
  | .ok a => pure a
  | .error e => throw e

/-- Runs a command, and reads what it answers. -/
def call (c : Call) : Build Reply := do
  modify fun w => { w with calls := w.calls ++ [c] }
  ofExcept ((← read).run c).read

/-- What a reading of a value comes to, where only a build error can stop it. -/
def ofBuild {α : Type} : Except BuildError α → Build α
  | .ok a => pure a
  | .error e => throw (.build e)

/-! ## Files -/

/-- Whether no file can have the path. -/
def hasNull (p : Path) : Bool := '\x00' ∈ p.text

/-- The text of a file, with its line boundaries unified, or why it cannot be read. -/
def fileText (h : Host) (files : FileTree) (p : Path) : Except Failure Text :=
  if hasNull p then .error .nullByte
  else match files.read h.here p with
    | .error fault => .error (.file fault p.text)
    | .ok bytes => match Utf8.decode bytes with
      | .error fault => .error (.encoding fault)
      | .ok t => .ok (Text.unifyNewlines t)

/-- The text of a file. -/
def readText (p : Path) : Build Text := do
  ofExcept (fileText (← read) (← get).files p)

/-- Why a file cannot be read, in words for a message that goes on about it. -/
def readFault? : Failure → Option Text
  | .file fault _ => some fault.text
  | .encoding fault => some ("not valid UTF-8 (byte offset " ++ Text.ofNat fault.offset ++ ")")
  | _ => none

/-- The text of a file; `e` says what build error it is that the file cannot be read. -/
def readTextOr (e : Text → BuildError) (p : Path) : Build Text := do
  match fileText (← read) (← get).files p with
  | .ok t => pure t
  | .error failure => match readFault? failure with
    | some why => throw (.build (e why))
    | none => throw failure

/-- Changes the files, or stops with the fault of a path. -/
def change (p : Path) (f : FileTree → Location → Except FileFault FileTree) : Build Unit := do
  let here := (← read).here
  let w ← get
  if hasNull p then throw .nullByte
  match f w.files here with
  | .ok files => set { w with files }
  | .error fault => throw (.file fault p.text)

/-- What is in a directory, under its names. -/
def list (p : Path) : Build (Table FileTree) := do
  match (← get).files.list (← read).here p with
  | .ok inside => return inside
  | .error fault => throw (.file fault p.text)

/-- Writes bytes to a file. -/
def writeBytes (p : Path) (bytes : List UInt8) : Build Unit :=
  change p fun files here => files.write here p bytes

/-- Writes a text to a file. -/
def writeText (p : Path) (t : Text) : Build Unit := writeBytes p (Utf8.encode t)

/-- Whether a path leads to a directory. -/
def isDirectory (p : Path) : Build Bool := do
  if hasNull p then return false
  match (← get).files.isDirectory (← read).here p with
  | .ok answer => return answer
  | .error fault => throw (.file fault p.text)

/-- Makes a directory, unless there is one. -/
def makeDirectory (p : Path) : Build Unit := do
  try change p fun files here => files.makeDirectory here p
  catch failure =>
    match failure with
    | .file .missing _ => throw failure
    | .file _ _ => if !(← isDirectory p) then throw failure
    | _ => throw failure

/-- The failure to make a directory with too many missing ones on the way to it. -/
def tooManyMissing : Failure := .tooDeep " while calling a Python object"

/-- Makes a directory and those that lead to it, of which no more than `depth` may be missing. -/
def makeDirectoriesWithin (depth : Nat) (p : Path) : Build Unit := do
  try makeDirectory p
  catch failure =>
    match failure with
    | .file .missing _ =>
      if p.names = [] then throw failure
      else
        match depth with
        | 0 => throw tooManyMissing
        | depth + 1 =>
          makeDirectoriesWithin depth p.parent
          makeDirectory p
    | _ => throw failure

/-- Makes a directory and those that lead to it, as far as the stack allows. -/
def makeDirectories (p : Path) : Build Unit := do
  makeDirectoriesWithin (← read).stack.parents p

/-! ## Imports -/

/-- The texts of the readable files, by every absolute path that leads to them without `..`. -/
def shelf (h : Host) (files : FileTree) : Import.Shelf :=
  let paths := files.contents.flatMap fun (place, _) =>
    [({ root := .slash, names := place } : Path), { root := .doubleSlash, names := place }]
  { files := paths.filterMap fun p => (fileText h files p).toOption.map (p.text, ·)
    fault := fun path => match fileText h files (.ofText path) with
      | .error failure => readFault? failure
      | .ok _ => some FileFault.missing.text
    groups := h.stack.groups }

/-- The names of all files that a parsed file imports, directly or through others. -/
def imports (file : Text) (parsed : Source.Parsed) : Build (List Text) := do
  let h ← read
  let (walk, stop) := Import.walkFrom (shelf h (← get).files)
    { base := h.directory.text, here := h.directory } file parsed
  for (name, referrer) in walk.found do
    note "dependencies" ("dependency " ++ name ++ " (from " ++ referrer ++ ")")
  match stop with
  | some failure => throw failure
  | none => pure walk.names

end Build

end ZigNif
