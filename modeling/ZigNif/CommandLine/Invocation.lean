import ZigNif.CommandLine.Arguments
import ZigNif.Path

/-!
# CommandLine/Invocation — what a command line asks for

There are three commands: to build a module from its config file, to list the files that a source
imports, and to format files.
-/

namespace ZigNif.CommandLine

/-! ## Requests -/

/-- Where glue code goes: to the output, to a file, or to a file whose name is left out. -/
inductive Destination
  | output
  | file (path : Path)
  | nameless
  deriving DecidableEq, Repr

/-- To build the module of a config file. -/
structure BuildRequest where
  config : Path := {}
  out : Destination := .output
  zig : Option Text := none
  stagingRoot : Option Text := none
  isJson : Bool := false
  deriving DecidableEq, Repr

/-- To list the files that a source imports, directly or through others. -/
structure DepsRequest where
  source : Path := {}
  isJson : Bool := false
  deriving DecidableEq, Repr

/-- To format files in place. -/
structure FormatRequest where
  paths : List Path := []
  zig : Option Text := none
  deriving DecidableEq, Repr

/-- What a command line asks for. -/
inductive Request
  | build (r : BuildRequest)
  | deps (r : DepsRequest)
  | format (r : FormatRequest)
  deriving DecidableEq, Repr

/-- A request, and whether the log is wanted too. -/
structure Invocation where
  request : Request
  isVerbose : Bool := false
  deriving DecidableEq, Repr

/-! ## Grammars -/

/-- The options with the two that ask for help before them. -/
def withHelp {α : Type} (options : Table (Effect α)) : Table (Effect α) :=
  ("-h", .help) :: ("--help", .help) :: options

/-- The grammar of `build`. -/
def buildGrammar : Grammar BuildRequest where
  options := withHelp
    [("--out", .value fun t r => { r with out := (t.map fun t => .file (.ofText t)).getD .nameless }),
      ("--zig", .value fun t r => { r with zig := t }),
      ("--staging-root", .value fun t r => { r with stagingRoot := t }),
      ("--json", .flag fun r => { r with isJson := true })]
  operands := .one fun t r => { r with config := .ofText t }

/-- The grammar of `deps`. -/
def depsGrammar : Grammar DepsRequest where
  options := withHelp [("--json", .flag fun r => { r with isJson := true })]
  operands := .one fun t r => { r with source := .ofText t }

/-- The grammar of `fmt`. -/
def formatGrammar : Grammar FormatRequest where
  options := withHelp [("--zig", .value fun t r => { r with zig := t })]
  operands := .many fun ts r => { r with paths := ts.map .ofText }

/-- The request of a command of the given name. -/
def Request.ofCommand (name : Text) (words : List Text) : Except Exit (Request × List Text) :=
  if name = "build" then do
    let (r, unknown) ← buildGrammar.parse {} words
    pure (.build r, unknown)
  else if name = "deps" then do
    let (r, unknown) ← depsGrammar.parse {} words
    pure (.deps r, unknown)
  else if name = "fmt" then do
    let (r, unknown) ← formatGrammar.parse {} words
    pure (.format r, unknown)
  else throw .misuse

/-- What the words before and after the name of the command come to. -/
structure Settings where
  isVerbose : Bool := false
  request : Option Request := none

/-- The grammar of the whole command line. -/
def grammar : Grammar Settings where
  options := withHelp
    [("-v", .flag fun s => { s with isVerbose := true }),
      ("--verbose", .flag fun s => { s with isVerbose := true })]
  operands := .command fun name words s => do
    let (request, unknown) ← Request.ofCommand name words
    pure ({ s with request := some request }, unknown)

/-- What the words of a command line ask for. -/
def Invocation.ofWords (words : List Text) : Except Exit Invocation := do
  match ← grammar.parse {} words with
  | ({ isVerbose, request := some request }, []) => pure { request, isVerbose }
  | _ => throw .misuse

example : (Invocation.ofWords ["-v", "deps", "--js", "--", "-m.zig"]).toOption =
    some { request := .deps { source := .ofText "-m.zig", isJson := true }, isVerbose := true } := by
  decide +kernel

end ZigNif.CommandLine
