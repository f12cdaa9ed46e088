import ZigNif.Glue.Finished
import ZigNif.Glue.Term

/-!
# Glue/Elixir — the Elixir module that loads the library

Every nif becomes a function that fails until the library has replaced it.  Attributes, external
resources and documentation come with it.
-/

namespace ZigNif.Glue.Elixir

/-- The terms of Elixir. -/
def style : TermStyle := { null := "nil", openMap := "%\x7b" }

/-- The lines of a nif's documentation. -/
def docLines (n : Nif) : List Text :=
  match n.doc with
  | none => []
  | some doc =>
    ("  @doc \"\"\"" : Text) :: (Text.lines doc).map (fun l => Text.trimEnd ("  " ++ l)) ++
      [("  \"\"\"" : Text)]

/-- The lines of a nif. -/
def nifLines (n : Nif) : List Text :=
  [[]] ++ docLines n ++
    ["  def " ++ n.name ++ "(" ++ Text.joined ", " (parameters n) ++
      "), do: :erlang.nif_error(:nif_not_loaded)"]

/-- The lines of the module. -/
def lines (f : Finished) : List Text :=
  ["defmodule " ++ f.name ++ " do"] ++
  f.attributes.map (fun a => "  @" ++ a.1 ++ " " ++ term style a.2) ++
  (Text.sorted f.dependencies).map (fun d => "  @external_resource " ++ Json.writeString d) ++
  ([ "  @on_load :__load_nifs__",
    "",
    "  def __load_nifs__ do",
    "    :erlang.load_nif(~c" ++ Json.writeString (loadPath f) ++ ", 0)",
    "  end"] : List Text) ++
  f.nifs.flatMap nifLines ++
  [("end" : Text)]

/-- The Elixir module. -/
def render (f : Finished) : Text := Text.unlines (lines f) ++ "\n"

end ZigNif.Glue.Elixir
