import ZigNif.Toolchain

/-!
# Pipeline — a whole build

A build stages the code, has it reported on, parses it, verifies the nifs against the report, writes
the entry file, builds the library and renders the glue code.  The first build error aborts it.
-/

namespace ZigNif.Pipeline

/-- A module that has been built, and its glue code. -/
structure Compiled where
  module : Module
  rendered : Text

/-- Builds the module that the options ask for from its code. -/
def compile (t : Toolchain) (o : Options) (code : Text) : Build Compiled := do
  let declared ← Build.ofBuild o.declared
  let m ← Staging.stage t.stagingRoot (Module.ofOptions o declared) code
  let m ← Build.ofExcept (m.withManifest code)
  let m ← t.withReport m
  let m ← m.withParsed code
  let m ← m.verify
  let m := m.withNifResources.withDocs
  t.precompile m
  let m := (← t.compile m).withoutManifest
  let rendered ← Build.ofExcept (Glue.render m)
  Build.note "compiler" ("rendered " ++ m.name ++ " (" ++ m.flavor.name ++ ")")
  pure { module := m, rendered }

/-- What a build comes to. -/
inductive Outcome
  | rendered (compiled : Compiled)
  | aborted (error : BuildError)

/-- Builds the module that the options ask for; a build error is an outcome. -/
def run (t : Toolchain) (o : Options) : Build Outcome := do
  try
    let code ← o.source
    return .rendered (← compile t o code)
  catch failure =>
    match failure with
    | .build error =>
      Build.note "compiler" ("build of " ++ o.module ++ " aborted: " ++ error.reason)
      return .aborted error
    | _ => throw failure

end ZigNif.Pipeline
