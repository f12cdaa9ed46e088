import ZigNif.Json.Basic
import ZigNif.Text.Digit

/-!
# Json/Token — the lexemes of JSON text

A text is cut into brackets, separators, strings and plain values, each with the text from its first
character on.  Cutting stops at the first place where no lexeme starts; what is wrong there is kept as
a last lexeme, because only the reader knows whether another complaint comes first.
-/

namespace ZigNif.Json

/-- What can be wrong with a string literal. -/
inductive StringFault
  | unterminated
  | controlCharacter
  | escape
  | unicodeEscape
  deriving DecidableEq, Repr

/-- A lexeme. `brokenString`, `longNumber` and `junk` stand where no lexeme can be read; the offset
of a broken string counts from its opening quote. -/
inductive Lexeme
  | openArray | closeArray | openObject | closeObject | comma | colon
  | value (v : Json)
  | string (t : Text)
  | brokenString (fault : StringFault) (offset : Nat)
  | longNumber (fault : Text.LongNumeral)
  | junk

/-- A lexeme and the text from its first character on. -/
structure Token where
  lexeme : Lexeme
  text : Text

/-! ## Strings -/

/-- The number that four hexadecimal digits denote. -/
def hex4? (a b c d : Char) : Option Nat := Text.hexNumeral? [a, b, c, d]

/-- The character for one escape letter. -/
def simpleEscape? : Char → Option Char
  | '"' => some '"'
  | '\\' => some '\\'
  | '/' => some '/'
  | 'b' => some '\x08'
  | 'f' => some '\x0c'
  | 'n' => some '\n'
  | 'r' => some '\r'
  | 't' => some '\t'
  | _ => none

/-- Whether a code unit is the first half of a surrogate pair. -/
def isHighHalf (n : Nat) : Bool := 0xd800 ≤ n && n < 0xdc00

/-- Whether a code unit is the second half of a surrogate pair. -/
def isLowHalf (n : Nat) : Bool := 0xdc00 ≤ n && n < 0xe000

/-- The character of a code unit; half a pair alone reads as the replacement character. -/
def unitChar (n : Nat) : Char := if isHighHalf n || isLowHalf n then '\ufffd' else Char.ofNat n

/-- The character of a surrogate pair. -/
def pairChar (high low : Nat) : Char :=
  Char.ofNat (0x10000 + (high - 0xd800) * 0x400 + (low - 0xdc00))

/-- The text of a list of code units, with the halves of pairs joined. -/
def ofUnits : List Nat → Text
  | [] => []
  | [n] => [unitChar n]
  | n :: m :: r =>
    if isHighHalf n && isLowHalf m then pairChar n m :: ofUnits r else unitChar n :: ofUnits (m :: r)

/-- What a string literal turned out to be: its code units and what follows it, or what is wrong
with it and where. -/
inductive StringRead
  | done (units : List Nat) (rest : Text)
  | broken (fault : StringFault) (offset : Nat)

/-- The literal with one more code unit in front. -/
def StringRead.push (n : Nat) : StringRead → StringRead
  | .done units r => .done (n :: units) r
  | .broken f o => .broken f o

/-- Reads a string literal after its opening quote, from which `offset` counts to the first character
left.  An escape of four digits has to have something after it, were it the closing quote. -/
def readString (offset : Nat) : Text → StringRead
  | [] => .broken .unterminated 0
  | '"' :: r => .done [] r
  | ['\\'] => .broken .unterminated 0
  | '\\' :: 'u' :: a :: b :: c :: d :: r =>
    match r, hex4? a b c d with
    | _ :: _, some n => (readString (offset + 6) r).push n
    | _, _ => .broken .unicodeEscape (offset + 1)
  | '\\' :: 'u' :: _ => .broken .unicodeEscape (offset + 1)
  | '\\' :: c :: r =>
    match simpleEscape? c with
    | some d => (readString (offset + 2) r).push d.toNat
    | none => .broken .escape offset
  | c :: r =>
    if c.toNat < 0x20 then .broken .controlCharacter offset
    else (readString (offset + 1) r).push c.toNat

theorem StringRead.push_eq_done {n : Nat} {s : StringRead} {units : List Nat} {r : Text}
    (h : s.push n = .done units r) : ∃ units', s = .done units' r := by
  cases s with
  | done units' r' => simp only [push, StringRead.done.injEq] at h; exact ⟨units', by simp [h]⟩
  | broken f o => simp [push] at h

/-- **What is left after a string is shorter** than what it was read from. -/
theorem length_readString {offset : Nat} {s : Text} {units : List Nat} {r : Text}
    (h : readString offset s = .done units r) : r.length < s.length := by
  fun_induction readString offset s generalizing units r with
  | case1 | case3 | case5 | case6 | case8 | case9 => simp at h
  | case2 => simp_all
  | case4 | case7 | case10 =>
    rename_i ih
    obtain ⟨units', h⟩ := StringRead.push_eq_done h
    have := ih h
    simp only [List.length_cons] at this ⊢; omega

/-! ## Numbers -/

/-- A number literal: its sign, the digits before and after the point, and its exponent if it has
one. -/
structure Numeral where
  negative : Bool
  whole : Text
  fraction : Text
  power : Option (Bool × Text)

/-- Whether the character is an ASCII digit. -/
def isAsciiDigit (c : Char) : Bool := '0' ≤ c && c ≤ '9'

/-- The digits of a whole part: a zero alone, or a run that starts with another digit. -/
def wholePart (t : Text) : Text × Text :=
  if t.head? = some '0' then (['0'], t.drop 1)
  else (t.takeWhile isAsciiDigit, t.dropWhile isAsciiDigit)

/-- The digits after a point, if there are any. -/
def fractionPart : Text → Text × Text
  | '.' :: r =>
    if r.takeWhile isAsciiDigit = [] then ([], '.' :: r)
    else (r.takeWhile isAsciiDigit, r.dropWhile isAsciiDigit)
  | t => ([], t)

/-- An optional sign: whether it is a minus, and what follows it. -/
def signPart : Text → Bool × Text
  | '-' :: r => (true, r)
  | '+' :: r => (false, r)
  | r => (false, r)

/-- The sign and the digits of an exponent, if there are any. -/
def powerPart : Text → Option (Bool × Text) × Text
  | [] => (none, [])
  | c :: r =>
    let (negative, digits) := signPart r
    if (c = 'e' ∨ c = 'E') ∧ digits.takeWhile isAsciiDigit ≠ [] then
      (some (negative, digits.takeWhile isAsciiDigit), digits.dropWhile isAsciiDigit)
    else (none, c :: r)

/-- The longest unsigned number literal at the start of a text, and what follows it. -/
def readUnsigned? (negative : Bool) (t : Text) : Option (Numeral × Text) :=
  let (whole, r) := wholePart t
  let (fraction, r) := fractionPart r
  let (power, r) := powerPart r
  if whole = [] then none else some ({ negative, whole, fraction, power }, r)

/-- The longest number literal at the start of a text, and what follows it. -/
def readNumeral? : Text → Option (Numeral × Text)
  | '-' :: r => readUnsigned? true r
  | r => readUnsigned? false r

theorem length_dropWhile_le (p : Char → Bool) (t : Text) : (t.dropWhile p).length ≤ t.length :=
  (List.dropWhile_suffix p).length_le

theorem length_wholePart (t : Text) (h : (wholePart t).1 ≠ []) :
    (wholePart t).2.length < t.length := by
  unfold wholePart at h ⊢
  split
  · cases t with
    | nil => simp_all
    | cons c r => simp
  · rename_i h0
    rw [if_neg h0] at h
    have := congrArg List.length (List.takeWhile_append_dropWhile (p := isAsciiDigit) (l := t))
    have := List.length_pos_iff.mpr h
    simp only [List.length_append] at *
    omega

theorem length_fractionPart (t : Text) : (fractionPart t).2.length ≤ t.length := by
  unfold fractionPart
  split
  · rename_i r
    have := length_dropWhile_le isAsciiDigit r
    split
    · simp
    · simp only [List.length_cons]; omega
  · simp

theorem length_signPart (t : Text) : (signPart t).2.length ≤ t.length := by
  unfold signPart
  split <;> simp

theorem length_powerPart (t : Text) : (powerPart t).2.length ≤ t.length := by
  unfold powerPart
  split
  · simp
  · rename_i c r
    have := length_dropWhile_le isAsciiDigit (signPart r).2
    have := length_signPart r
    simp only
    split <;> simp only [List.length_cons] <;> omega

theorem length_readUnsigned {negative : Bool} {t r : Text} {n : Numeral}
    (h : readUnsigned? negative t = some (n, r)) : r.length < t.length := by
  simp only [readUnsigned?] at h
  split at h
  · simp at h
  · rename_i hw
    simp only [Option.some.injEq, Prod.mk.injEq] at h
    have := length_wholePart t hw
    have := length_fractionPart (wholePart t).2
    have := length_powerPart (fractionPart (wholePart t).2).2
    rw [← h.2]; omega

/-- **What is left after a number is shorter** than what it was read from. -/
theorem length_readNumeral {t r : Text} {n : Numeral} (h : readNumeral? t = some (n, r)) :
    r.length < t.length := by
  unfold readNumeral? at h
  split at h
  · have := length_readUnsigned h
    simp only [List.length_cons]; omega
  · exact length_readUnsigned h

/-- The number that ASCII digits denote. -/
def digitsValue (t : Text) : Nat := t.foldl (fun n c => 10 * n + (c.toNat - '0'.toNat)) 0

/-- The lexeme of a literal: a whole number, which may not be too long, unless it has a point or an
exponent. -/
def Numeral.lexeme (n : Numeral) : Lexeme :=
  if n.fraction = [] ∧ n.power = none then
    if n.whole.length ≤ Text.maxDigits then
      .value (.int (if n.negative then -(digitsValue n.whole : Int) else digitsValue n.whole))
    else .longNumber (.read n.whole.length)
  else
    let power : Int := match n.power with
      | none => 0
      | some (true, digits) => -(digitsValue digits : Int)
      | some (false, digits) => digitsValue digits
    .value (.float (Binary64.ofDecimal n.negative (digitsValue (n.whole ++ n.fraction))
      (power - n.fraction.length)))

/-! ## Lexemes -/

/-- The words that are values. -/
def words : List (Text × Json) :=
  [("null", .null), ("true", .bool true), ("false", .bool false), ("NaN", .float .nan),
    ("Infinity", .float (.infinity false)), ("-Infinity", .float (.infinity true))]

/-- The value word at the start of a text, and what follows it. -/
def readWord? (t : Text) : Option (Json × Text) :=
  (words.find? fun w => w.1.isPrefixOf t).map fun w => (w.2, t.drop w.1.length)

/-- The first lexeme of a text that starts with no blank, and what follows it; nothing follows a
lexeme that is broken. -/
def firstLexeme (c : Char) (r : Text) : Lexeme × Text :=
  match c with
  | '[' => (.openArray, r)
  | ']' => (.closeArray, r)
  | '{' => (.openObject, r)
  | '}' => (.closeObject, r)
  | ',' => (.comma, r)
  | ':' => (.colon, r)
  | '"' => match readString 1 r with
    | .done units rest => (.string (ofUnits units), rest)
    | .broken fault place => (.brokenString fault place, [])
  | _ => match readWord? (c :: r) with
    | some (v, rest) => (.value v, rest)
    | none => match readNumeral? (c :: r) with
      | some (n, rest) => (n.lexeme, rest)
      | none => (.junk, [])

/-- The blanks of JSON text. -/
def isSpace (c : Char) : Bool := c = ' ' || c = '\t' || c = '\n' || c = '\r'

theorem length_readWord {t r : Text} {v : Json} (h : readWord? t = some (v, r)) :
    r.length < t.length := by
  simp only [readWord?, Option.map_eq_some_iff, Prod.mk.injEq] at h
  obtain ⟨w, hw, -, rfl⟩ := h
  have hmem := List.mem_of_find?_eq_some hw
  have hpre := (List.isPrefixOf_iff_prefix.mp (List.find?_some (p := fun w : Text × Json => w.1.isPrefixOf t) hw)).length_le
  have : 0 < w.1.length := by
    simp only [words, List.mem_cons, List.not_mem_nil, or_false] at hmem
    rcases hmem with rfl | rfl | rfl | rfl | rfl | rfl <;> decide
  simp only [List.length_drop]; omega

theorem length_firstLexeme (c : Char) (r : Text) :
    (firstLexeme c r).2.length < (c :: r).length := by
  unfold firstLexeme
  split
  any_goals simp
  · split
    · rename_i h
      have := length_readString h
      simp only; omega
    · simp
  · split
    · rename_i h
      have := length_readWord h
      simpa using this
    · split
      · rename_i h
        have := length_readNumeral h
        simpa using this
      · simp

/-- The lexemes of a text. -/
def lex : Text → List Token
  | [] => []
  | c :: r =>
    if isSpace c then lex r
    else { lexeme := (firstLexeme c r).1, text := c :: r } :: lex (firstLexeme c r).2
termination_by t => t.length
decreasing_by
  · simp
  · exact length_firstLexeme c r

end ZigNif.Json
