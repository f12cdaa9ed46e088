import ZigNif.Glue.Elixir
import ZigNif.Glue.Erlang
import ZigNif.Glue.Entry

/-!
# Glue/Render — the glue code of a module

The flavor of a module chooses the renderer; only finished modules are rendered.
-/

namespace ZigNif.Glue

/-- The glue code of a flavor. -/
def renderAs : Flavor → Finished → Text
  | .elixir => Elixir.render
  | .erlang => Erlang.render

/-- The glue code of a module, if there is a renderer for its flavor. -/
def renderIn (flavors : List Flavor) (m : Module) : Except Failure Text :=
  if m.flavor ∈ flavors then renderAs m.flavor <$> finish m
  else .error (.noRenderer m.flavor.name)

/-- The glue code of a module. -/
def render (m : Module) : Except Failure Text := renderIn [.elixir, .erlang] m

/-- The entry file of a module. -/
def renderEntry (m : Module) : Except Failure Text := Entry.render <$> finish m

end ZigNif.Glue
