import ZigNif.Failure
import ZigNif.Json.Reader

/-!
# Report — what the compiler reports about a module

The report is a JSON object whose `functions` array has an object for every exported function, with
a name and perhaps parameter types, a return type and a mode.
-/

namespace ZigNif.Report

/-- An error about the report, in the module's file. -/
def malformed (file : Option Text) (message : Text) : Failure :=
  .build { reason := BuildError.compileReason, message, span := { file } }

/-- Whether a value counts as absent where a list is expected. -/
def isEmpty : Json → Bool
  | .null | .bool false | .int 0 => true
  | .float x => x.isZero
  | .str t => t = []
  | .arr items => items.isEmpty
  | .obj fields => fields.isEmpty
  | _ => false

/-- The texts of the parameter types: the items of an array, but a string stands for its characters
and an object for its keys. -/
def params (v : Json) : Except Failure (List Text) :=
  if isEmpty v then .ok []
  else match v with
    | .arr items => .ok (items.map Json.plain)
    | .str t => .ok (t.map fun c => [c])
    | .obj fields => .ok (Table.keys fields)
    | .float _ => .error (.notIterable "float")
    | .bool _ => .error (.notIterable "bool")
    | _ => .error (.notIterable "int")

/-- The reported mode of a function. -/
def mode (file : Option Text) (fields : Table Json) : Except Failure Mode :=
  match fields.get? "concurrency" with
  | none => .ok .synchronous
  | some v => match Mode.ofJson? v with
    | some mode => .ok mode
    | none => .error (malformed file ("sema: " ++ Mode.unknown v))

/-- The export that an element of the `functions` array describes. -/
def exportOf (file : Option Text) (v : Json) : Except Failure Export := do
  match v, v.get? "name" with
  | .obj fields, some (.str name) =>
    let mode ← mode file fields
    let params ← params ((Table.get? fields "params").getD .null)
    let returns := (Table.get? fields "returns").elim ("void" : Text) Json.plain
    pure { name, signature := { params, returns }, mode }
  | _, _ => throw (malformed file ("malformed sema entry " ++ v.shown))

/-- The exports that a report lists. -/
def ofText (file : Option Text) (text : Text) : Except Failure (List Export) := do
  match Json.parse text with
  | .error { complaint := .longNumber fault, .. } => throw (.longNumeral fault)
  | .error fault =>
    throw (malformed file ("sema produced invalid JSON: " ++ fault.complaint.message))
  | .ok v => match v.get? "functions" with
    | some (.arr entries) => entries.mapM (exportOf file)
    | _ => throw (malformed file "sema output missing 'functions' array")

/-- The failure of a report with arrays and objects that are nested too deeply. -/
def overflow (kind : Text) : Failure :=
  .tooDeep (" while decoding a JSON " ++ kind ++ " from a unicode string")

/-- The exports that a report lists, as far as the stack allows. -/
def ofTextWithin (limit : Nat) (file : Option Text) (text : Text) : Except Failure (List Export) :=
  match Json.overflow? limit text with
  | some kind => .error (overflow kind)
  | none => ofText file text

end ZigNif.Report
