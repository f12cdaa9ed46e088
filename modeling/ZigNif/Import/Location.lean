import ZigNif.Path

/-!
# Import/Location — which file an import means

An import is relative to the directory of the file that holds it.  The imported file is known by a
path without `..`, relative to the working directory if it lies there and absolute otherwise.
-/

namespace ZigNif.Import

/-- The path that an import is resolved to: the working directory, the importing file's directory
and the import, put together and made normal. -/
def location (base : Path) (referrer dep : Text) : Path :=
  ((base.join (Path.directoryOf referrer)).join (.ofText dep)).normal

/-- The name of an imported file as seen from `base`; `here` is the absolute directory that a
relative `base` starts from. -/
def name (here base : Path) (referrer dep : Text) : Text :=
  let place := location base referrer dep
  match Path.under? (here.join base).normal (here.join place).normal with
  | some inside => inside.text
  | none => place.text

/-- The path by which the file of that name is read. -/
def readPath (base name : Text) : Text :=
  if name.head? = some '/' then name
  else if base.getLast? = some '/' then base ++ name
  else base ++ "/" ++ name

end ZigNif.Import
