import ZigNif.Glue.Finished
import ZigNif.Glue.Term

/-!
# Glue/Erlang — the Erlang module that loads the library

Every nif becomes an exported function that fails until the library has replaced it.  Attributes
and documentation come with it.
-/

namespace ZigNif.Glue.Erlang

/-- The terms of Erlang. -/
def style : TermStyle := { null := "undefined", openMap := "#\x7b" }

/-- The lines of a nif's documentation. -/
def docLines (n : Nif) : List Text :=
  match n.doc with
  | none => []
  | some doc => (Text.lines doc).map fun l => Text.trimEnd ("%% " ++ l)

/-- The lines of a nif. -/
def nifLines (n : Nif) : List Text :=
  [[]] ++ docLines n ++
    [n.name ++ "(" ++ Text.joined ", " (parameters n) ++ ") ->",
      "    erlang:nif_error(nif_not_loaded)."]

/-- The entry of a nif in the export list. -/
def exportEntry (n : Nif) : Text := n.name ++ "/" ++ Text.ofNat n.arity

/-- The lines of the module. -/
def lines (f : Finished) : List Text :=
  ["-module(" ++ f.name ++ ").",
    "-export([" ++ Text.joined ", " (f.nifs.map exportEntry) ++ "]).",
    "-on_load(init/0)."] ++
  f.attributes.map (fun a => "-" ++ a.1 ++ "(" ++ term style a.2 ++ ").") ++
  ([ "",
    "init() ->",
    "    erlang:load_nif(" ++ Json.writeString (loadPath f) ++ ", 0)."] : List Text) ++
  f.nifs.flatMap nifLines

/-- The Erlang module. -/
def render (f : Finished) : Text := Text.unlines (lines f) ++ "\n"

end ZigNif.Glue.Erlang
