import ZigNif.Module

/-!
# Staging — the directory a module is built in

A module is built in a directory of its own, named for the environment and the module.  The staged
source stands there beside copies of the Zig files around the module's own source, so that its
imports find them.
-/

namespace ZigNif.Staging

/-- The name of the directory that all staging directories of a root are in. -/
def directoryName : Text := ".nifbind_compiler"

/-- The staging directory of a module; an empty root is none. -/
def assemblyDirectory (h : Host) (root : Option Text) (env module : Text) : Text :=
  let base := ((Span.named root).getD h.defaultRoot).map fun c => if c = '\\' then '/' else c
  Text.dropEndWhile (· = '/') base ++ "/" ++ directoryName ++ "/" ++ env ++ "/" ++ module

/-- The staging directory of a module as a path. -/
def directory (h : Host) (root : Option Text) (env module : Text) : Path :=
  .ofText (assemblyDirectory h root env module)

/-- The name of the staged source. -/
def sourceName (module : Text) : Text := "." ++ module ++ ".zig"

/-- Whether a name starts with a dot. -/
def isHidden (name : Text) : Bool := name.head? = some '.'

/-- Copies a file, unless it is its own target. -/
def copy (source target : Path) : Build Unit := do
  let files := (← get).files
  let here := (← read).here
  match files.locate here source, files.locate here target with
  | .ok a, .ok b =>
    if a = b then throw (.sameFile source.text target.text)
  | _, _ => pure ()
  match files.read here source with
  | .ok bytes => Build.writeBytes target bytes
  | .error fault => throw (.file fault source.text)

/-- Copies the Zig files of the directory that `names` lead to below `source`. -/
def copyFiles (source target : Path) (names : List Text) : Build Unit := do
  for (name, _) in ← Build.list (source.join { names }) do
    if (".zig" : Text).isSuffixOf name ∧ !(names ++ [name]).any isHidden then
      Build.makeDirectories (target.join { names })
      copy (source.join { names := names ++ [name] }) (target.join { names := names ++ [name] })

/-- Copies the Zig files of the directory that `names` lead to below `source`, and those deeper in
it.  Files come before directories, and each directory is looked into when its turn comes, so that
copies made on the way are copied too.  Hidden directories are looked into as all others are, though
nothing is copied from them.  The depth is that of the stack that is left. -/
def copySourcesFrom (source target : Path) : (depth : Nat) → (names : List Text) → Build Unit
  | 0, names => do
    copyFiles source target names
    throw (.tooDeep [])
  | depth + 1, names => do
    copyFiles source target names
    for (name, e) in ← Build.list (source.join { names }) do
      if e.isFolder then copySourcesFrom source target depth (names ++ [name])

/-- Copies the Zig files of a directory and those below it, except hidden ones and what is in hidden
directories. -/
def copySources (source target : Path) : Build Unit := do
  if ← Build.isDirectory source then
    copySourcesFrom source target (← read).stack.folders []

/-- Stages the code of a module. -/
def stage (root : Option Text) (m : Module) (code : Text) : Build Module := do
  let dir := directory (← read) root m.options.env m.name
  Build.makeDirectories dir
  copySources m.options.sourcePath.parent dir
  let staged := dir.join (.ofText (sourceName m.name))
  Build.writeText staged code
  Build.note "builder" ("staged " ++ m.name ++ " at " ++ staged.text)
  pure { m with stagedPath := some staged }

end ZigNif.Staging
