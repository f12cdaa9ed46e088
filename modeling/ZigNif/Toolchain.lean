import ZigNif.Diagnostic
import ZigNif.Glue.Render
import ZigNif.Harness
import ZigNif.Report
import ZigNif.Staging

/-!
# Toolchain — what a build has the compiler do

The compiler runs the harness, formats the entry file and builds the library, in this order.
Running and building stop the build if they fail; formatting never does.
-/

namespace ZigNif

/-- A compiler and how it is asked to build. -/
structure Toolchain where
  executable : Text
  optimize : Text := "ReleaseSafe"
  extraArgs : List Text := []
  stagingRoot : Option Text := none
  deriving DecidableEq, Repr

namespace Toolchain

/-- The compiler to use if none is named. -/
def findExecutable : Build Text := do
  let h ← read
  match Span.named h.zig <|> Span.named h.zigOnPath with
  | some exe => pure exe
  | none =>
    throw (.build (.config "zig executable not found (install zig or set NIFBIND_ZIG)" {}))

/-- The toolchain with the named compiler, or with the one that is found. -/
def find (executable stagingRoot : Option Text) : Build Toolchain := do
  match Span.named executable with
  | some exe => pure { executable := exe, stagingRoot }
  | none => pure { executable := ← findExecutable, stagingRoot }

/-- The name of the library of a module, on a platform of the given name. -/
def libraryName (platform module : Text) : Text :=
  if platform = "darwin" then "lib" ++ module ++ ".dylib"
  else if Text.dropPrefix? "win" platform ≠ none then module ++ ".dll"
  else "lib" ++ module ++ ".so"

/-- The platform that libraries are built for. -/
def platform : Text := "linux"

/-- The name of the entry file. -/
def entryName : Text := "module.zig"

/-- The error of a failed run for a module. -/
def failure (what output : Text) (m : Module) : Failure :=
  let stagedPath := m.stagedPath.map Path.text
  match Diagnostic.failure what output m.name m.file stagedPath m.manifest with
  | .ok e => .build e
  | .error fault => .longNumeral fault

/-- The staged path of a module at a stage that needs it. -/
def stagedPath (m : Module) (stage : Stage) : Build Path :=
  match m.stagedPath with
  | some path => pure path
  | none => throw (.outOfOrder stage)

/-! ## Formatting -/

/-- Formats a file in place. -/
def format (t : Toolchain) (p : Path) : Build Unit := do
  let reply ← Build.call { words := [t.executable, "fmt", p.text] }
  if reply.code ≠ 0 then
    Build.note "command"
      ("zig fmt left " ++ p.text ++ " unchanged: " ++ Text.trim reply.errors)

/-- The source as the compiler formats it, or as it was if the compiler cannot. -/
def formatSource (t : Toolchain) (source : Text) : Build Text := do
  let reply ← Build.call { words := [t.executable, "fmt", "--stdin"], input := some source }
  pure (if reply.code = 0 then reply.output else source)

/-! ## Stages -/

/-- The module with the exports that the compiler reports. -/
def withReport (t : Toolchain) (m : Module) : Build Module := do
  let staged ← stagedPath m .sema
  let harness := staged.parent.join (.ofText Harness.fileName)
  Build.writeText harness (Harness.source staged.name)
  let reply ← Build.call
    { words := [t.executable, "run", harness.text], directory := some staged.parent.text }
  if reply.code ≠ 0 then throw (failure "sema" reply.errors m)
  Build.note "sema" ("sema for " ++ m.name ++ ": " ++ Text.trim reply.output)
  let limit := (← read).stack.values
  let reported ← Build.ofExcept (Report.ofTextWithin limit (some m.file) reply.output)
  pure { m with reported := some reported }

/-- Writes the entry file of a module. -/
def precompile (t : Toolchain) (m : Module) : Build Unit := do
  let staged ← stagedPath m .precompile
  let entry := staged.parent.join (.ofText entryName)
  Build.writeText entry (← Build.ofExcept (Glue.renderEntry m))
  t.format entry
  Build.note "compiler" ("wrote module code to " ++ entry.text)

/-- The module with its library built. -/
def compile (t : Toolchain) (m : Module) : Build Module := do
  let staged ← stagedPath m .compile
  let dir := staged.parent
  let library := dir.join (.ofText (libraryName platform m.name))
  let words : List Text :=
    [t.executable, "build-lib", "-dynamic", "-O", t.optimize, "-femit-bin=" ++ library.text] ++
      t.extraArgs ++ [(dir.join (.ofText entryName)).text]
  Build.note "command" ("compiling " ++ m.name ++ ": " ++ Text.joined " " words)
  let reply ← Build.call { words, directory := some dir.text }
  if reply.code ≠ 0 then throw (failure "compile" reply.errors m)
  pure { m with libraryPath := some library.text }

end Toolchain

end ZigNif
