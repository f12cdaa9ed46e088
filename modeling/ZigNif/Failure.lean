import ZigNif.BuildError
import ZigNif.Nif.Basic
import ZigNif.Text.Digit
import ZigNif.Text.Utf8

/-!
# Failure — everything that can stop an operation

Beside build errors these are values that name nothing, stages run out of order, numerals that are
too long, things nested too deeply, files that cannot be used, and texts that are no UTF-8.
-/

namespace ZigNif

/-- Why the system refuses to use a file. -/
inductive FileFault
  | missing | alreadyExists | notDirectory | isDirectory | nameTooLong
  deriving DecidableEq, Repr

namespace FileFault

/-- The number of the fault. -/
def number : FileFault → Nat
  | missing => 2
  | alreadyExists => 17
  | notDirectory => 20
  | isDirectory => 21
  | nameTooLong => 36

/-- The fault in words. -/
def text : FileFault → Text
  | missing => "No such file or directory"
  | alreadyExists => "File exists"
  | notDirectory => "Not a directory"
  | isDirectory => "Is a directory"
  | nameTooLong => "File name too long"

end FileFault

/-- A stage of the pipeline that needs what an earlier one leaves behind. -/
inductive Stage
  | sema | verify | precompile | compile
  deriving DecidableEq, Repr

namespace Stage

def name : Stage → Text
  | sema => "sema"
  | verify => "verify"
  | precompile => "precompile"
  | compile => "compile"

/-- What the stage needs. -/
def needs : Stage → Text
  | verify => "sema results"
  | _ => "a staged module"

end Stage

/-- Why an operation stopped. -/
inductive Failure
  | build (error : BuildError)
  | unknownMode (v : Json)
  | unknownFlavor (v : Json)
  | notVerified (module : Text)
  | notParsed (module : Text)
  | notAggregated (nif module : Text)
  | noRenderer (flavor : Text)
  | outOfOrder (stage : Stage)
  | notIterable (kind : Text)
  | longNumeral (fault : Text.LongNumeral)
  | tooDeep (doing : Text)
  | namelessOutput
  | nullByte
  | encoding (fault : Utf8.Fault)
  | file (fault : FileFault) (path : Text)
  | sameFile (source target : Text)
  deriving Repr

namespace Failure

/-- The complaint about a value that names no host flavor. -/
def unknownFlavorText (v : Json) : Text :=
  "unknown host flavor " ++ v.shown ++ " (expected one of: elixir, erlang)"

/-- The failure in words. -/
def message : Failure → Text
  | build error => error.format
  | unknownMode v => Mode.unknown v
  | unknownFlavor v => unknownFlavorText v
  | notVerified module => "module " ++ module ++ " has no verified nifs"
  | notParsed module => "module " ++ module ++ " was not parsed"
  | notAggregated nif module =>
    "nif " ++ nif ++ " resources were not aggregated into module " ++ module
  | noRenderer flavor => "no renderer registered for flavor " ++ flavor
  | outOfOrder stage => stage.name ++ " requires " ++ stage.needs
  | notIterable kind => "'" ++ kind ++ "' object is not iterable"
  | longNumeral fault => fault.message
  | tooDeep doing => "maximum recursion depth exceeded" ++ doing
  | namelessOutput => "'list' object has no attribute 'parent'"
  | nullByte => "embedded null byte"
  | encoding fault => fault.message
  | file fault path =>
    "[Errno " ++ Text.ofNat fault.number ++ "] " ++ fault.text ++ ": " ++ Text.quoted path
  | sameFile source target =>
    "PosixPath(" ++ Text.quoted source ++ ") and PosixPath(" ++ Text.quoted target ++
      ") are the same file"

end Failure

end ZigNif
