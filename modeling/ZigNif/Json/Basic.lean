import ZigNif.Number.Binary64
import ZigNif.Table

/-!
# Json/Basic — JSON values

An object keeps its fields in the order of their first appearance, and whole numbers are kept apart
from double-precision ones.
-/

namespace ZigNif

/-- A JSON value.  The fields of an object are a table, so its keys are distinct. -/
inductive Json
  | null
  | bool (b : Bool)
  | int (n : Int)
  | float (x : Binary64)
  | str (t : Text)
  | arr (items : List Json)
  | obj (fields : List (Text × Json))
  deriving Repr

namespace Json

/-- The value of `key`, if the value is an object that has it. -/
def get? (key : Text) : Json → Option Json
  | .obj fields => Table.get? fields key
  | _ => none

end Json

end ZigNif
