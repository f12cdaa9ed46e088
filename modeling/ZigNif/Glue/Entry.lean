import ZigNif.Glue.Finished
import ZigNif.Staging

/-!
# Glue/Entry — the Zig file that the library is compiled from

The entry file imports the staged source and lists the module's resources and nifs in two tables.
-/

namespace ZigNif.Glue.Entry

/-- The first line of generated files. -/
def header : Text := "// this code is autogenerated, do not check it into source control"

/-- The line of a resource. -/
def resourceLine (r : Resource) : Text :=
  "    .\x7b .name = \"" ++ r.name ++ "\", .scope = ." ++ r.scope ++ " \x7d,"

/-- The line of a nif. -/
def nifLine (n : Nif) : Text :=
  "    .\x7b .name = \"" ++ n.name ++ "\", .arity = " ++ Text.ofNat n.arity ++
    ", .concurrency = ." ++ n.mode.name ++ ", .function = nif_module." ++ n.name ++ " \x7d,"

/-- The lines of the entry file. -/
def lines (f : Finished) : List Text :=
  [header,
    "const nif_module = @import(\"" ++ Staging.sourceName f.name ++ "\");",
    "",
    "pub const resources = .\x7b"] ++
  f.resources.map resourceLine ++
  (["\x7d;", "", "pub const nifs = .\x7b"] : List Text) ++
  f.nifs.map nifLine ++
  [("\x7d;" : Text)]

/-- The entry file. -/
def render (f : Finished) : Text := Text.unlines (lines f) ++ "\n"

end ZigNif.Glue.Entry
