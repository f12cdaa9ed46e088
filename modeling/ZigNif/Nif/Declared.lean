import ZigNif.Nif.Basic

/-!
# Nif/Declared — the author's list of nifs

A declaration is a bare name, a name with options, or the wildcard.  The wildcard makes the whole
list automatic: every function the compiler reports is exported, and the other entries only add
options.  Of several declarations of one name the last counts, in the place of the first.
-/

namespace ZigNif

/-- One element of the author's list. -/
inductive Declaration
  | wildcard
  | bare (name : Text)
  | withOptions (name : Text) (options : Table Json)
  deriving Repr

namespace Declaration

/-- The wildcard's spelling. -/
def wildcardName : Text := "..."

/-- Why a JSON value is no declaration. -/
inductive Fault
  | emptyName
  | unknownFields (names : List Text)
  | badName (v : Json)
  | badOptions (name : Text)
  | badShape (v : Json)
  deriving Repr

/-- The fault in words. -/
def Fault.message : Fault → Text
  | .emptyName => "nif name must be a non-empty string"
  | .unknownFields names => "nif declaration has unknown fields: " ++ Text.joined ", " names
  | .badName v => "nif declaration name must be a non-empty string, got " ++ v.shown
  | .badOptions name => "options for nif '" ++ name ++ "' must be an object"
  | .badShape v => "invalid nif declaration " ++ v.shown

/-- A declaration from a name and its options. -/
def ofPair (name options : Json) : Except Fault Declaration :=
  match name with
  | .str n =>
    if n = [] ∨ n = wildcardName then .error (.badName name)
    else match options with
      | .obj fields => .ok (.withOptions n fields)
      | _ => .error (.badOptions n)
  | _ => .error (.badName name)

/-- The declaration that a JSON value spells: a name, the wildcard, an object with `name` and
perhaps `options`, or an array of both. -/
def ofJson : Json → Except Fault Declaration
  | .str t =>
    if t = wildcardName then .ok .wildcard
    else if t = [] then .error .emptyName
    else .ok (.bare t)
  | .obj fields =>
    let unknown := (Table.keys fields).filter fun k => k ∉ [("name" : Text), "options"]
    if unknown ≠ [] then .error (.unknownFields (Text.sorted unknown))
    else
      ofPair ((Table.get? fields "name").getD .null)
        ((Table.get? fields "options").getD (.obj []))
  | .arr [name, options] => ofPair name options
  | v => .error (.badShape v)

end Declaration

/-- A normal list of declarations: whether every reported function is exported, and the options of
the names that occur. -/
structure Declared where
  auto : Bool := false
  entries : Table (Table Json) := []
  deriving Repr

namespace Declared

/-- The declared names. -/
def names (d : Declared) : List Text := Table.keys d.entries

/-- The options of a name. -/
def get? (d : Declared) (name : Text) : Option (Table Json) := Table.get? d.entries name

/-- The list with one more declaration. -/
def add (d : Declared) : Declaration → Declared
  | .wildcard => { d with auto := true }
  | .bare n => { d with entries := Table.put n [] d.entries }
  | .withOptions n options => { d with entries := Table.put n options d.entries }

/-- The normal form of a list of declarations, or what is wrong with the first that is none. -/
def ofJson (raw : List Json) : Except Declaration.Fault Declared :=
  raw.foldlM (fun d v => d.add <$> Declaration.ofJson v) {}

end Declared

end ZigNif
