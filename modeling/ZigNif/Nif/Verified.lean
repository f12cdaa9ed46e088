import ZigNif.BuildError
import ZigNif.Nif.Declared

/-!
# Nif/Verified — the declared nifs against the reported exports

An explicit list exports exactly the declared names, and each has to be reported; an automatic one
exports every reported function, and a declared name that is not reported is an error too.  A
module has to export something.
-/

namespace ZigNif.Nif

/-- The option that sets a function's mode. -/
def modeOption : Text := "concurrency"

/-- The reported exports by name; of several reports of one name the first counts. -/
def reportTable (reported : List Export) : Table Export :=
  reported.foldl (fun t e => Table.putNew e.name e t) []

/-- The nif for a reported function with the author's options, or the value that names no mode. -/
def ofExport (e : Export) (options : Table Json) : Except Json Nif :=
  match Table.get? options modeOption with
  | none => .ok { name := e.name, mode := e.mode, signature := e.signature, options }
  | some v => match Mode.ofJson? v with
    | some mode => .ok { name := e.name, mode, signature := e.signature, options }
    | none => .error v

/-- `ofExport`, with a bad mode as an error of the author's file. -/
def record (file : Option Text) (e : Export) (options : Table Json) : Except BuildError Nif :=
  match ofExport e options with
  | .ok n => .ok n
  | .error v => .error
    { reason := BuildError.configReason
      message := "nif '" ++ e.name ++ "': " ++ Mode.unknown v
      span := { file }
      nif := some e.name }

/-- The error about a declared name that is not reported. -/
def missing (file module : Option Text) (name : Text) (notes : List Text) : BuildError :=
  { reason := BuildError.missingReason
    message := "nif '" ++ name ++ "' not found in zig source"
    span := { file }
    module
    nif := some name
    notes }

/-- The note that lists what was reported. -/
def foundNote (reported : Table Export) : Text :=
  let names := Text.joined ", " (Text.sorted reported.keys)
  "public functions found: " ++ if names = [] then ("(none)" : Text) else names

/-- The nifs of an automatic list. -/
def verifyAuto (declared : Declared) (reported : Table Export) (file module : Option Text) :
    Except BuildError (List Nif) := do
  let nifs ← reported.mapM fun entry => record file entry.2 ((declared.get? entry.1).getD [])
  match Text.sorted (declared.names.filter fun n => !reported.has n) with
  | [] => pure nifs
  | name :: _ => throw (missing file module name [])

/-- The nifs of an explicit list. -/
def verifyExplicit (declared : Declared) (reported : Table Export) (file module : Option Text) :
    Except BuildError (List Nif) :=
  declared.entries.mapM fun entry =>
    match reported.get? entry.1 with
    | some e => record file e entry.2
    | none => .error (missing file module entry.1 [foundNote reported])

/-- The nifs of a module. -/
def verify (declared : Declared) (reported : List Export) (file module : Option Text) :
    Except BuildError (List Nif) := do
  let table := reportTable reported
  let nifs ← if declared.auto then verifyAuto declared table file module
    else verifyExplicit declared table file module
  if nifs = [] then
    throw { reason := BuildError.emptyReason, message := "no nifs found in module.",
            span := { file }, module }
  pure nifs

end ZigNif.Nif
