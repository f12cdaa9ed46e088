import ZigNif.Json.Basic
import ZigNif.Number.Shortest
import ZigNif.Text.Quoted

/-!
# Json/Writer — the two texts of a JSON value

`Json.write` is JSON text in ASCII: characters beyond it become escapes of four digits, in pairs
where one does not suffice.  `Json.shown` is the form in which messages quote a value.
-/

namespace ZigNif.Json

/-! ## JSON text -/

/-- The escape of a code unit. -/
def unitEscape (n : Nat) : Text := "\\u" ++ Text.hex 4 n

/-- A character inside a JSON string. -/
def escapedChar (c : Char) : Text :=
  match c with
  | '"' => "\\\""
  | '\\' => "\\\\"
  | '\n' => "\\n"
  | '\r' => "\\r"
  | '\t' => "\\t"
  | '\x08' => "\\b"
  | '\x0c' => "\\f"
  | _ =>
    let n := c.toNat
    if 0x20 ≤ n ∧ n < 0x7f then [c]
    else if n < 0x10000 then unitEscape n
    else unitEscape (0xd800 + (n - 0x10000) / 0x400) ++ unitEscape (0xdc00 + (n - 0x10000) % 0x400)

/-- A text as a JSON string. -/
def writeString (t : Text) : Text := '"' :: t.flatMap escapedChar ++ ['"']

/-- The separators between items and after a key. -/
structure Separators where
  item : Text
  key : Text

/-- Separators with a space after them. -/
def spaced : Separators := ⟨", ", ": "⟩

/-- Separators without any space. -/
def compact : Separators := ⟨",", ":"⟩

mutual

/-- The JSON text of a value. -/
def writeWith (s : Separators) : Json → Text
  | .null => "null"
  | .bool true => "true"
  | .bool false => "false"
  | .int n => Text.ofInt n
  | .float x => x.text "Infinity" "NaN"
  | .str t => writeString t
  | .arr items => "[" ++ Text.joined s.item (writeItems s items) ++ "]"
  | .obj fields => "\x7b" ++ Text.joined s.item (writeFields s fields) ++ "\x7d"

/-- The JSON texts of the items of an array. -/
def writeItems (s : Separators) : List Json → List Text
  | [] => []
  | v :: vs => writeWith s v :: writeItems s vs

/-- The JSON texts of the fields of an object. -/
def writeFields (s : Separators) : List (Text × Json) → List Text
  | [] => []
  | (k, v) :: rest => (writeString k ++ s.key ++ writeWith s v) :: writeFields s rest

end

/-- The JSON text of a value, with a space after every separator. -/
def write (v : Json) : Text := writeWith spaced v

/-! ## Values in messages -/

mutual

/-- The value as messages quote it. -/
def shown : Json → Text
  | .null => "None"
  | .bool true => "True"
  | .bool false => "False"
  | .int n => Text.ofInt n
  | .float x => x.text "inf" "nan"
  | .str t => Text.quoted t
  | .arr items => "[" ++ Text.joined ", " (shownItems items) ++ "]"
  | .obj fields => "\x7b" ++ Text.joined ", " (shownFields fields) ++ "\x7d"

/-- The items of an array as messages quote them. -/
def shownItems : List Json → List Text
  | [] => []
  | v :: vs => shown v :: shownItems vs

/-- The fields of an object as messages quote them. -/
def shownFields : List (Text × Json) → List Text
  | [] => []
  | (k, v) :: rest => (Text.quoted k ++ ": " ++ shown v) :: shownFields rest

end

/-- The value as plain text: a string stands for itself. -/
def plain : Json → Text
  | .str t => t
  | v => shown v

end ZigNif.Json
