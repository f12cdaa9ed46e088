import ZigNif.Json.Writer

/-!
# Glue/Term — attribute values as terms of the host language

Both flavors write numbers, strings and lists alike; they differ in the word for no value and in
how a map opens.
-/

namespace ZigNif.Glue

/-- What differs between the flavors' terms. -/
structure TermStyle where
  null : Text
  openMap : Text

mutual

/-- A JSON value as a term. -/
def term (s : TermStyle) : Json → Text
  | .null => s.null
  | .bool true => "true"
  | .bool false => "false"
  | .int n => Text.ofInt n
  | .float x => x.text "inf" "nan"
  | .str t => Json.writeString t
  | .arr items => "[" ++ Text.joined ", " (terms s items) ++ "]"
  | .obj fields => s.openMap ++ Text.joined ", " (fieldTerms s fields) ++ "\x7d"

/-- The items of an array as terms. -/
def terms (s : TermStyle) : List Json → List Text
  | [] => []
  | v :: vs => term s v :: terms s vs

/-- The fields of an object as entries of a map. -/
def fieldTerms (s : TermStyle) : List (Text × Json) → List Text
  | [] => []
  | (k, v) :: rest => (Json.writeString k ++ " => " ++ term s v) :: fieldTerms s rest

end

end ZigNif.Glue
