import ZigNif.Manifest
import ZigNif.Nif.Docs
import ZigNif.Nif.Verified
import ZigNif.Workspace

/-!
# Module — a module and what is known about it

The author's options say what to build; a `Module` is what the stages of a build find out about it.
A stage takes a module and gives it back with its own part filled in.
-/

namespace ZigNif

/-- The language that the glue code is for. -/
inductive Flavor
  | elixir
  | erlang
  deriving DecidableEq, Repr

namespace Flavor

def name : Flavor → Text
  | elixir => "elixir"
  | erlang => "erlang"

/-- The flavor that a JSON value names. -/
def ofJson? : Json → Option Flavor
  | .str t => [elixir, erlang].find? fun f => f.name = t
  | _ => none

end Flavor

/-! ## Options -/

/-- What the author asks for.  `line` is the line of `file` that asks for it. -/
structure Options where
  module : Text
  file : Text
  flavor : Flavor := .elixir
  dir : Option Text := none
  code : Option Text := none
  codePath : Option Text := none
  nifs : List Json := []
  attributes : Table Json := []
  resources : List Text := []
  env : Text
  line : Option Int := none
  deriving Repr

namespace Options

/-- The place that asks for the module. -/
def span (o : Options) : Span := { file := some o.file, line := o.line }

/-- The directory of the file that asks for the module. -/
def fileDirectory (o : Options) : Path := (Path.ofText o.file).parent

/-- The directory of the code. -/
def codeDirectory (o : Options) : Text := (Span.named o.dir).getD o.fileDirectory.text

/-- The path that imports of the code are relative to. -/
def sourcePath (o : Options) : Path :=
  match o.codePath with
  | some path => o.fileDirectory.join (.ofText path)
  | none => (Path.ofText o.codeDirectory).join (.ofText (Path.ofText o.file).name)

/-- The code: literal, or the text of the file it is in, but not both. -/
def source (o : Options) : Build Text := do
  match o.code, o.codePath with
  | some _, some _ =>
    throw (.build (.config "you may not supply literal code when `code_path` is specified"
      o.span (some o.module)))
  | _, some path =>
    let p := o.fileDirectory.join (.ofText path)
    Build.readTextOr (fun why =>
      .config ("cannot read code_path '" ++ p.text ++ "': " ++ why) o.span (some o.module)) p
  | some code, none => pure code
  | none, none =>
    throw (.build (.config "no zig code supplied (set `code` or `code_path`)" o.span
      (some o.module)))

/-- The author's nifs in normal form. -/
def declared (o : Options) : Except BuildError Declared :=
  match Declared.ofJson o.nifs with
  | .ok d => .ok d
  | .error fault => .error (.config fault.message o.span)

end Options

/-! ## Modules -/

/-- A module, with the author's options and what the stages so far have found out. -/
structure Module where
  name : Text
  file : Text
  flavor : Flavor
  options : Options
  declared : Declared := {}
  stagedPath : Option Path := none
  manifest : Option Manifest := none
  parsed : Option Source.Parsed := none
  reported : Option (List Export) := none
  dependencies : List Text := []
  nifs : List Nif := []
  resources : List Resource := []
  libraryPath : Option Text := none
  deriving Repr

namespace Module

/-- The module that the author asks for, before any stage. -/
def ofOptions (o : Options) (declared : Declared) : Module :=
  { name := o.module, file := o.file, flavor := o.flavor, options := o, declared
    resources := o.resources.map fun r => { name := r } }

/-- The module with the manifest of its staged source. -/
def withManifest (m : Module) (source : Text) : Except Failure Module :=
  match Manifest.ofSource m.file source with
  | .ok manifest => .ok { m with manifest := some manifest }
  | .error fault => .error (.longNumeral fault)

/-- The module without a manifest. -/
def withoutManifest (m : Module) : Module := { m with manifest := none }

/-- The module with its verified nifs. -/
def verify (m : Module) : Build Module := do
  match m.reported with
  | none => throw (.outOfOrder .verify)
  | some reported =>
    let nifs ← Build.ofBuild (Nif.verify m.declared reported (some m.file) (some m.name))
    Build.note "verify" ("verified nifs for " ++ m.name ++ ": " ++
      Text.joined ", " (nifs.map Nif.name))
    pure { m with nifs }

/-- The module with the resources that its nifs need, after those that it has. -/
def withNifResources (m : Module) : Module :=
  { m with
    nifs := m.nifs.map Nif.withResources
    resources := m.resources ++ m.nifs.flatMap Nif.required }

/-- The module with its nifs documented. -/
def withDocs (m : Module) : Module :=
  { m with nifs := m.nifs.map (Nif.withDoc ((m.parsed.map Source.Parsed.code).getD [])) }

/-- The module with the declarations of its code and the files it imports.  A fault is reported in
the author's file that the faulty line comes from.  The code is parsed one call higher up than the
files it imports, so its groups may be nested by one more. -/
def withParsed (m : Module) (code : Text) : Build Module := do
  match Source.parseFileWithin ((← read).stack.groups + 1) (some m.file) code with
  | .error (.build e) => match m.manifest, e.span.line with
    | some manifest, some line =>
      throw (.build { e with span := manifest.resolve line e.span.column })
    | _, _ => throw (.build e)
  | .error failure => throw failure
  | .ok parsed =>
    let dependencies ← Build.imports m.options.sourcePath.text parsed
    pure { m with parsed := some parsed, dependencies }

end Module

end ZigNif
