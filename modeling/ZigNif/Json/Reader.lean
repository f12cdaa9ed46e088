import ZigNif.Json.Token

/-!
# Json/Reader — reading a JSON value

Reading is a fold over the lexemes.  The state says what may come next, and the stack holds the
arrays and objects that are still open, so the first lexeme that may not come next is where the
text goes wrong.
-/

namespace ZigNif.Json

/-- What is wrong with a JSON text. -/
inductive Complaint
  | byteOrderMark
  | expectedValue
  | expectedKey
  | expectedColon
  | expectedComma
  | extraData
  | badString (fault : StringFault)
  | longNumber (fault : Text.LongNumeral)
  deriving DecidableEq, Repr

/-- The complaint in words. -/
def Complaint.message : Complaint → Text
  | .byteOrderMark => "Unexpected UTF-8 BOM (decode using utf-8-sig)"
  | .expectedValue => "Expecting value"
  | .expectedKey => "Expecting property name enclosed in double quotes"
  | .expectedColon => "Expecting ':' delimiter"
  | .expectedComma => "Expecting ',' delimiter"
  | .extraData => "Extra data"
  | .badString .unterminated => "Unterminated string starting at"
  | .badString .controlCharacter => "Invalid control character at"
  | .badString .escape => "Invalid \\escape"
  | .badString .unicodeEscape => "Invalid \\uXXXX escape"
  | .longNumber fault => fault.message

/-- A complaint, and how much of the text is left at the character it is about. -/
structure Fault where
  complaint : Complaint
  left : Nat
  deriving DecidableEq, Repr

/-- The offset in a text of the character that the complaint is about. -/
def Fault.offset (f : Fault) (t : Text) : Nat := t.length - f.left

/-- An array or object that is still open, with what it holds so far; an object also has the key
that waits for its value. -/
inductive Frame
  | array (items : List Json)
  | object (fields : List (Text × Json)) (key : Text)

/-- What may come next: a value (or the end of an array that has just been opened), a key (or the
end of an object that has just been opened), the colon after a key, or what follows a value. -/
inductive Expect
  | value (mayClose : Bool)
  | key (fields : List (Text × Json)) (mayClose : Bool)
  | colon (fields : List (Text × Json)) (key : Text)
  | after (v : Json)

/-- How far reading has come. -/
structure Progress where
  expect : Expect
  stack : List Frame

/-- The complaint about a lexeme where `c` is complained about in general: a broken string is
complained about for what is broken, if a string could have stood there. -/
def faultAt (tok : Token) (c : Complaint) : Fault :=
  match tok.lexeme with
  | .brokenString fault offset => ⟨.badString fault, tok.text.length - offset⟩
  | _ => ⟨c, tok.text.length⟩

/-- Closes the innermost array or object around the value read last. -/
def close (tok : Token) (v : Json) : List Frame → Except Fault Progress
  | [] => .error ⟨.extraData, tok.text.length⟩
  | .array items :: stack => match tok.lexeme with
    | .comma => .ok ⟨.value false, .array (items ++ [v]) :: stack⟩
    | .closeArray => .ok ⟨.after (.arr (items ++ [v])), stack⟩
    | _ => .error ⟨.expectedComma, tok.text.length⟩
  | .object fields key :: stack => match tok.lexeme with
    | .comma => .ok ⟨.key (Table.put key v fields) false, stack⟩
    | .closeObject => .ok ⟨.after (.obj (Table.put key v fields)), stack⟩
    | _ => .error ⟨.expectedComma, tok.text.length⟩

/-- Reads one lexeme. -/
def step (p : Progress) (tok : Token) : Except Fault Progress :=
  match p.expect with
  | .value mayClose => match tok.lexeme with
    | .value v => .ok ⟨.after v, p.stack⟩
    | .string t => .ok ⟨.after (.str t), p.stack⟩
    | .openArray => .ok ⟨.value true, .array [] :: p.stack⟩
    | .openObject => .ok ⟨.key [] true, p.stack⟩
    | .longNumber fault => .error ⟨.longNumber fault, tok.text.length⟩
    | .closeArray => match mayClose, p.stack with
      | true, .array [] :: stack => .ok ⟨.after (.arr []), stack⟩
      | _, _ => .error ⟨.expectedValue, tok.text.length⟩
    | _ => .error (faultAt tok .expectedValue)
  | .key fields mayClose => match tok.lexeme with
    | .string t => .ok ⟨.colon fields t, p.stack⟩
    | .closeObject =>
      if mayClose then .ok ⟨.after (.obj []), p.stack⟩ else .error ⟨.expectedKey, tok.text.length⟩
    | _ => .error (faultAt tok .expectedKey)
  | .colon fields key => match tok.lexeme with
    | .colon => .ok ⟨.value false, .object fields key :: p.stack⟩
    | _ => .error ⟨.expectedColon, tok.text.length⟩
  | .after v => close tok v p.stack

/-- What reading comes to when the text ends. -/
def finish (p : Progress) : Except Fault Json :=
  match p.expect, p.stack with
  | .after v, [] => .ok v
  | .after _, _ :: _ => .error ⟨.expectedComma, 0⟩
  | .value _, _ => .error ⟨.expectedValue, 0⟩
  | .key _ _, _ => .error ⟨.expectedKey, 0⟩
  | .colon _ _, _ => .error ⟨.expectedColon, 0⟩

/-- The value that a text denotes, or where it goes wrong. -/
def parse (t : Text) : Except Fault Json :=
  if t.head? = some '\ufeff' then .error ⟨.byteOrderMark, t.length⟩
  else (lex t).foldlM step ⟨.value false, []⟩ >>= finish

/-! ## Nesting -/

/-- What the lexeme opens, if it opens an array or an object inside of `limit` others. -/
def Progress.overflow? (limit : Nat) (p : Progress) (tok : Token) : Option Text :=
  if p.stack.length < limit then none
  else match p.expect, tok.lexeme with
    | .value _, .openArray => some "array"
    | .value _, .openObject => some "object"
    | _, _ => none

/-- The first of the lexemes to come that opens too much, up to where the text goes wrong. -/
def overflowFrom? (limit : Nat) (p : Progress) : List Token → Option Text
  | [] => none
  | tok :: toks => p.overflow? limit tok <|>
    match step p tok with
    | .ok next => overflowFrom? limit next toks
    | .error _ => none

/-- What is opened inside of `limit` arrays and objects when the text is read. -/
def overflow? (limit : Nat) (t : Text) : Option Text :=
  if t.head? = some '\ufeff' then none else overflowFrom? limit ⟨.value false, []⟩ (lex t)

end ZigNif.Json
