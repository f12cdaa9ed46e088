import ZigNif.CommandLine.Run

/-!
# Main — the program

The program reads the files below the working directory, carries out its command line on them, and
writes back what has changed.  It starts no compiler of its own: every command is answered the way
a shell answers for a program that it cannot find.
-/

namespace ZigNif.Main

/-- What the program says about its own use. -/
def usage : Text := "usage: zignif [-h] [-v] (build CONFIG | deps SOURCE | fmt PATH...)\n"

/-- The tree with a file, or with a directory and all that is in it. -/
partial def addEntry (place : Location) (t : FileTree) (e : IO.FS.DirEntry) : IO FileTree := do
  let place := place ++ [e.fileName.toList]
  if ← e.path.isDir then
    let mut t := t.put place (.directory [])
    for inside in ← e.path.readDir do
      t ← addEntry place t inside
    return t
  else
    return t.put place (.file (← IO.FS.readBinFile e.path).toList)

/-- Makes a file or directory on the disk what it is in a tree. -/
def store (place : Location) (e : FileTree) : IO Unit := do
  let path := String.ofList ({ root := .slash, names := place } : Path).text
  match e.bytes? with
  | none => IO.FS.createDirAll path
  | some bytes => IO.FS.writeBinFile path ⟨bytes.toArray⟩

/-- The value of an environment variable. -/
def environment (name : String) : IO (Option Text) := return (← IO.getEnv name).map String.toList

/-- The host that the program runs on. -/
def host (here : Location) : IO Host :=
  return {
    here
    temporary := (← environment "TMPDIR").getD "/tmp"
    envName := ← environment "NIFBIND_ENV"
    stagingRoot := ← environment "NIFBIND_STAGING_ROOT"
    zig := ← environment "NIFBIND_ZIG"
    run := fun _ => { code := 127 } }

/-- Carries out an invocation on the files below the working directory. -/
def invoke (i : CommandLine.Invocation) : IO UInt32 := do
  let directory ← IO.currentDir
  let here := (Path.ofText (toString directory).toList).names
  let h ← host here
  let mut files : FileTree := .directory []
  for place in [here, (Path.ofText h.temporary).names] do
    if (files.get? place).isNone then files := files.put place (.directory [])
  for e in ← directory.readDir do
    files ← addEntry here files e
  let (result, w) := i.run.runIn h { files }
  for (place, e) in w.files.contents do
    if (files.get? place).map FileTree.bytes? ≠ some e.bytes? then store place e
  match result with
  | .ok answer =>
    IO.print (String.ofList answer.output)
    IO.eprint (String.ofList answer.errors)
    return answer.code.toUInt32
  | .error failure =>
    IO.eprintln (String.ofList failure.message)
    return 1

end ZigNif.Main

def main (arguments : List String) : IO UInt32 := do
  match ZigNif.CommandLine.Invocation.ofWords (arguments.map String.toList) with
  | .ok i => ZigNif.Main.invoke i
  | .error .help => IO.print (String.ofList ZigNif.Main.usage); return 0
  | .error .misuse => IO.eprint (String.ofList ZigNif.Main.usage); return 2
