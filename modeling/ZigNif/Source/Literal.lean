import ZigNif.Text.Utf8

/-!
# Source/Literal — escapes in string literals and quoted names

The inside of a literal denotes bytes: a character stands for its UTF-8 bytes, `\xNN` for one byte,
and `\u` with a braced code point for the bytes of that character.  All bytes together have to be
UTF-8 again.
-/

namespace ZigNif.Source.Literal

/-- Why the inside of a literal denotes no text. -/
inductive Fault
  | byteEscape (offset : Nat)
  | codePointEscape (offset : Nat)
  | escape (letter : Text) (offset : Nat)
  | surrogate (n : Nat)
  | beyondCodePoints
  | bytes (fault : Utf8.Fault)
  deriving DecidableEq, Repr

/-- The fault in words. -/
def Fault.message : Fault → Text
  | .byteEscape offset => "invalid \\x escape at offset " ++ Text.ofNat offset
  | .codePointEscape offset => "invalid \\u escape at offset " ++ Text.ofNat offset
  | .escape letter offset =>
    "invalid escape sequence '\\" ++ letter ++ "' at offset " ++ Text.ofNat offset
  | .surrogate n =>
    "'utf-8' codec can't encode character '\\u" ++ Text.hex 4 n ++
      "' in position 0: surrogates not allowed"
  | .beyondCodePoints => "chr() arg not in range(0x110000)"
  | .bytes fault => fault.message

/-- The character for one escape letter. -/
def simpleEscape? : Char → Option Char
  | 'n' => some '\n'
  | 'r' => some '\r'
  | 't' => some '\t'
  | '\\' => some '\\'
  | '\'' => some '\''
  | '"' => some '"'
  | _ => none

/-- The bytes of a code point, or why it is no character. -/
def codePointBytes (n : Nat) : Except Fault (List UInt8) :=
  if 0x110000 ≤ n then .error .beyondCodePoints
  else if 0xd800 ≤ n ∧ n < 0xe000 then .error (.surrogate n)
  else .ok (String.utf8EncodeChar (Char.ofNat n))

/-- Whether the character is a hexadecimal digit. -/
def isHexDigit (c : Char) : Bool := (Text.hexValue? c).isSome

/-- A code point in braces, of one to six digits: its digits. -/
def braced? : Text → Option Text
  | '\x7b' :: r =>
    let digits := r.takeWhile isHexDigit
    if 1 ≤ digits.length ∧ digits.length ≤ 6 ∧ (r.drop digits.length).head? = some '\x7d' then
      some digits
    else none
  | _ => none

/-- The number that the hexadecimal digits denote. -/
def hexNumber (digits : Text) : Nat := (Text.hexNumeral? digits).getD 0

/-- `bytes` for the part of a literal that starts at the given offset. -/
def bytesFrom (offset : Nat) : Text → Except Fault (List UInt8)
  | [] => .ok []
  | '\\' :: 'x' :: r =>
    match r with
    | a :: b :: r' =>
      if isHexDigit a && isHexDigit b then
        (UInt8.ofNat (hexNumber [a, b]) :: ·) <$> bytesFrom (offset + 4) r'
      else .error (.byteEscape offset)
    | _ => .error (.byteEscape offset)
  | '\\' :: 'u' :: r =>
    match braced? r with
    | none => .error (.codePointEscape offset)
    | some digits => do
      let here ← codePointBytes (hexNumber digits)
      let rest ← bytesFrom (offset + (digits.length + 4)) (r.drop (digits.length + 2))
      pure (here ++ rest)
  | ['\\'] => .error (.escape [] offset)
  | '\\' :: c :: r =>
    match simpleEscape? c with
    | some d => (String.utf8EncodeChar d ++ ·) <$> bytesFrom (offset + 2) r
    | none => .error (.escape [c] offset)
  | c :: r => (String.utf8EncodeChar c ++ ·) <$> bytesFrom (offset + 1) r
termination_by t => t.length
decreasing_by all_goals simp only [List.length_cons, List.length_drop]; omega

/-- The bytes that the inside of a literal denotes. -/
def bytes (raw : Text) : Except Fault (List UInt8) := bytesFrom 0 raw

/-- The text that the inside of a literal denotes: its bytes, read as UTF-8. -/
def unescape (raw : Text) : Except Fault Text := do
  match Utf8.decode (← bytes raw) with
  | .ok t => .ok t
  | .error fault => .error (.bytes fault)

/-- The text that the inside of a literal denotes; without a backslash it is that text itself. -/
def decode (raw : Text) : Except Fault Text := if '\\' ∈ raw then unescape raw else .ok raw

end ZigNif.Source.Literal
