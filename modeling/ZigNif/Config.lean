import ZigNif.Json.Reader
import ZigNif.Module

/-!
# Config — build options from a JSON file

A config file is a JSON object of a fixed format and version.  Paths in it are relative to the file
itself.  An error about a field points at the first line where the field's name stands before a
colon.
-/

namespace ZigNif.Config

/-- The fields that a config may have. -/
def fieldNames : List Text :=
  ["format", "version", "module", "flavor", "file", "dir", "code", "code_path", "nifs",
    "attributes", "resources", "env", "x"]

/-- Whether the text starts with a field name before a colon. -/
def isFieldAt (key t : Text) : Bool :=
  match Text.dropPrefix? ("\"" ++ key ++ "\"") t with
  | none => false
  | some r => (Text.trimStart r).head? = some ':'

/-- `fieldLine` for a text that starts on the given line. -/
def fieldLineFrom (key : Text) (line : Nat) : Text → Option Nat
  | [] => none
  | c :: r =>
    if isFieldAt key (c :: r) then some line
    else fieldLineFrom key (if c = '\n' then line + 1 else line) r

/-- The first line where a field's name stands before a colon. -/
def fieldLine (text key : Text) : Option Nat := fieldLineFrom key 1 text

/-- A config file: its path, its text, and its fields. -/
structure Document where
  path : Path
  text : Text
  fields : Table Json

namespace Document

/-- The file as a place. -/
def fileSpan (d : Document) : Span := { file := some d.path.text }

/-- The line of a field as a place. -/
def spanOf (d : Document) (key : Text) : Span :=
  { file := some d.path.text, line := (fieldLine d.text key).map Int.ofNat }

/-- The value of a field that has to be a string and not empty, if the field is there. -/
def text? (d : Document) (key : Text) : Except BuildError (Option Text) :=
  match d.fields.get? key with
  | none | some .null => .ok none
  | some (.str (c :: r)) => .ok (some (c :: r))
  | some _ => .error (.config ("'" ++ key ++ "' must be a non-empty string") (d.spanOf key))

/-- Whether the value is the number zero. -/
def isZero : Json → Bool
  | .int 0 | .bool false => true
  | .float x => x.isZero
  | _ => false

/-- Whether the document is of the one format and version that there is. -/
def isSupported (d : Document) : Bool :=
  (match d.fields.get? "format" with
    | some (.str t) => t = "nifbind-module".toList
    | _ => false) &&
  (d.fields.get? "version").any isZero

/-- The value of a field in the shape that it has to have, or the default if it is left out. -/
def field {α : Type} (d : Document) (module key : Text) (complaint : Json → Text) (default : α)
    (shape? : Json → Option α) : Except BuildError α :=
  match d.fields.get? key with
  | none => .ok default
  | some v => match shape? v with
    | some a => .ok a
    | none => .error (.config (complaint v) (d.spanOf key) (some module))

/-! ## Shapes of values -/

/-- Code, or none if the value is null. -/
def code? : Json → Option (Option Text)
  | .null => some none
  | .str code => some (some code)
  | _ => none

def array? : Json → Option (List Json)
  | .arr items => some items
  | _ => none

def object? : Json → Option (Table Json)
  | .obj fields => some fields
  | _ => none

/-- The text of a value that has to be a string and not empty. -/
def nonEmptyText? : Json → Option Text
  | .str (c :: r) => some (c :: r)
  | _ => none

def names? : Json → Option (List Text)
  | .arr items => items.mapM nonEmptyText?
  | _ => none

/-! ## The options -/

def checkFormat (d : Document) : Except BuildError Unit :=
  if d.isSupported then .ok ()
  else .error (.config "unsupported build config format/version" d.fileSpan)

def checkFields (d : Document) : Except BuildError Unit :=
  let unknown := d.fields.keys.filter fun k => k ∉ fieldNames
  if unknown = [] then .ok ()
  else .error (.config ("build config has unknown top-level fields: " ++
    Text.joined ", " (Text.sorted unknown)) d.fileSpan)

def moduleName (d : Document) : Except BuildError Text := do
  match ← d.text? "module" with
  | some module => .ok module
  | none => .error (.config "build config requires 'module'" d.fileSpan)

/-- Every nif has to be a declaration. -/
def checkNifs (d : Document) (nifs : List Json) : Except BuildError Unit :=
  nifs.forM fun v => match Declaration.ofJson v with
    | .ok _ => .ok ()
    | .error fault => .error (.config fault.message (d.spanOf "nifs"))

/-- The build options that a document asks for. -/
def options (h : Host) (d : Document) : Except BuildError Options := do
  d.checkFormat
  d.checkFields
  let module ← d.moduleName
  let flavor ← d.field module "flavor" Failure.unknownFlavorText .elixir Flavor.ofJson?
  let file ← d.text? "file"
  let dir ← d.text? "dir"
  let code ← d.field module "code" (fun _ => "'code' must be a string") none code?
  let codePath ← d.text? "code_path"
  let nifs ← d.field module "nifs" (fun _ => "'nifs' must be an array") [] array?
  d.checkNifs nifs
  let attributes ←
    d.field module "attributes" (fun _ => "'attributes' must be an object") [] object?
  let resources ←
    d.field module "resources" (fun _ => "'resources' must be an array of names") [] names?
  let env ← d.text? "env"
  let base := d.path.parent
  let lineOf : Text := if code.isSome && codePath.isSome then "code" else "module"
  pure
    { module
      file := (file.map fun f => (base.join (.ofText f)).text).getD d.path.text
      flavor
      dir := dir.map fun d => (base.join (.ofText d)).text
      code, codePath, nifs, attributes, resources
      env := env.getD h.defaultEnv
      line := (fieldLine d.text lineOf).map Int.ofNat }

end Document

/-- The line and the column of an offset in a text, both counted from one. -/
def lineAndColumn (text : Text) (offset : Nat) : Nat × Nat :=
  let before := text.take offset
  (before.count '\n' + 1, (before.reverse.takeWhile (· ≠ '\n')).length + 1)

/-- The document that a config file holds. -/
def document (path : Path) (text : Text) : Except Failure Document :=
  match Json.parse text with
  | .error { complaint := .longNumber fault, .. } => .error (.longNumeral fault)
  | .error fault =>
    let (line, column) := lineAndColumn text (fault.offset text)
    .error (.build (.config ("invalid JSON: " ++ fault.complaint.message)
      { file := some path.text, line := some (line : Int), column := some (column : Int) }))
  | .ok (.obj fields) => .ok { path, text, fields }
  | .ok _ =>
    .error (.build (.config "build config must be a JSON object" { file := some path.text }))

/-- The build options that a config file asks for. -/
def load (path : Path) : Build Options := do
  let text ← Build.readTextOr
    (fun why => .config ("cannot read build config: " ++ why) { file := some path.text }) path
  let d ← Build.ofExcept (document path text)
  Build.ofBuild (d.options (← read))

end ZigNif.Config
