import ZigNif.Json.Writer

/-!
# Nif/Basic — exported functions and what they need at run time

The compiler reports an exported function with its signature and mode; a nif is such a function as
the module exports it, with the author's options.  Every mode but the synchronous one keeps state
across a call, and so needs a resource of its own.
-/

namespace ZigNif

/-! ## Modes -/

/-- How the host calls a function. -/
inductive Mode
  | synchronous | threaded | yielding | dirtyCpu | dirtyIo
  deriving DecidableEq, Repr

namespace Mode

def all : List Mode := [synchronous, threaded, yielding, dirtyCpu, dirtyIo]

/-- The name of a mode. -/
def name : Mode → Text
  | synchronous => "synchronous"
  | threaded => "threaded"
  | yielding => "yielding"
  | dirtyCpu => "dirty_cpu"
  | dirtyIo => "dirty_io"

/-- The mode that a JSON value names. -/
def ofJson? : Json → Option Mode
  | .str t => all.find? fun m => m.name = t
  | _ => none

/-- The complaint about a value that names no mode. -/
def unknown (v : Json) : Text := "unknown concurrency mode " ++ v.shown

/-- What the resource of a function is called, in front of the function's name. -/
def resourceLabel? : Mode → Option Text
  | synchronous => none
  | threaded => some "ThreadResource"
  | yielding => some "YieldingResource"
  | dirtyCpu | dirtyIo => some "DirtyResource"

end Mode

/-! ## Exports -/

/-- Parameter and return types as the compiler spells them. -/
structure Signature where
  params : List Text := []
  returns : Text := "void"
  deriving DecidableEq, Repr

/-- The number of parameters. -/
def Signature.arity (s : Signature) : Nat := s.params.length

/-- A function as the compiler reports it. -/
structure Export where
  name : Text
  signature : Signature := {}
  mode : Mode := .synchronous
  deriving DecidableEq, Repr

/-- A named handle that the host keeps for the module. -/
structure Resource where
  name : Text
  scope : Text := "root"
  deriving DecidableEq, Repr

/-- A function that the module exports. -/
structure Nif where
  name : Text
  mode : Mode
  signature : Signature
  options : Table Json := []
  doc : Option Text := none
  resources : List Resource := []
  deriving Repr

namespace Nif

/-- The number of parameters. -/
def arity (n : Nif) : Nat := n.signature.arity

/-- The resources that a function needs, by its mode and name alone. -/
def required (n : Nif) : List Resource :=
  match n.mode.resourceLabel? with
  | none => []
  | some label => [{ name := label ++ "_" ++ n.name }]

/-- The function with the resources that it needs. -/
def withResources (n : Nif) : Nif := { n with resources := n.required }

end Nif

end ZigNif
