import ZigNif.Module

/-!
# Glue/Finished — modules that are ready to be rendered

Glue code is written only for a module whose nifs are verified, whose code is parsed, and whose
resources are put together.
-/

namespace ZigNif.Glue

/-- What the renderers get to see of a module. -/
structure Finished where
  name : Text
  flavor : Flavor
  nifs : List Nif
  resources : List Resource
  attributes : Table Json
  libraryPath : Option Text
  dependencies : List Text
  deriving Repr

/-- The module as the renderers see it, if it is ready. -/
def finish (m : Module) : Except Failure Finished :=
  if m.nifs.isEmpty then .error (.notVerified m.name)
  else if m.parsed.isNone then .error (.notParsed m.name)
  else match m.nifs.find? fun n => !n.resources.all fun r => m.resources.contains r with
    | some n => .error (.notAggregated n.name m.name)
    | none => .ok
      { name := m.name, flavor := m.flavor, nifs := m.nifs, resources := m.resources
        attributes := m.options.attributes, libraryPath := m.libraryPath
        dependencies := m.dependencies }

/-- Where the host loads the library from: its path without the suffix. -/
def loadPath (f : Finished) : Text :=
  match f.libraryPath with
  | none => "lib" ++ f.name
  | some path =>
    let p := Path.ofText path
    (p.parent.join (.ofText p.stem)).text

/-- The names of a nif's parameters in glue code. -/
def parameters (n : Nif) : List Text := (List.range n.arity).map fun i => "_arg" ++ Text.ofNat i

end ZigNif.Glue
