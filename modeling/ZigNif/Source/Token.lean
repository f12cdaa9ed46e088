import ZigNif.Text.Blank

/-!
# Source/Token — the terminals of Zig source

Only the shape of a source file matters here: braces, doc comments, names, literals and `@import`
calls.  Each terminal says how long a match of it is at the start of a text; at every place the
first terminal in order of priority that matches is taken.
-/

namespace ZigNif.Source

/-- The terminals.  `comment` and `blank` are layout and leave no token. -/
inductive Terminal
  | importCall | docComment | comment | multilineString | quotedName | builtin
  | string | char | name | leftBrace | rightBrace | semicolon | other | blank
  deriving DecidableEq, Repr

/-! ## Runs and literals -/

/-- The length of the longest run of `p` characters at the start. -/
def runLength (p : Char → Bool) (t : Text) : Nat := (t.takeWhile p).length

def isLetter (c : Char) : Bool := ('A' ≤ c && c ≤ 'Z') || ('a' ≤ c && c ≤ 'z') || c == '_'

def isNumeric (c : Char) : Bool := '0' ≤ c && c ≤ '9'

def isNameChar (c : Char) : Bool := isLetter c || isNumeric c

/-- Layout characters; no other white space is allowed outside comments and literals. -/
def isLayoutBlank (c : Char) : Bool :=
  c == ' ' || c == '\t' || c == '\x0c' || c == '\r' || c == '\n'

/-- The characters of operators and other punctuation. -/
def isOperator (c : Char) : Bool :=
  !(Text.isBlank c || isNameChar c || c == '\x7b' || c == '\x7d' || c == ';' || c == '"' ||
    c == '\'' || c == '@' || c == '\\' || c == '/')

/-- The length of a literal after its opening quote, closing quote included.  A backslash takes the
next character along, and a literal does not reach past its line. -/
def quotedLength (quote : Char) : Text → Option Nat
  | [] => none
  | '\\' :: c :: r => if c = '\n' then none else (quotedLength quote r).map (· + 2)
  | c :: r =>
    if c = quote then some 1
    else if c = '\n' ∨ c = '\\' then none
    else (quotedLength quote r).map (· + 1)

/-- The length of `mark` at the start of the text, and of what `next` finds after it. -/
def afterMark (mark : Text) (next : Text → Option Nat) (t : Text) : Option Nat :=
  if mark.isPrefixOf t then (next (t.drop mark.length)).map (mark.length + ·) else none

/-- The length of a run of white space, and of what `next` finds after it. -/
def afterBlanks (next : Text → Option Nat) (t : Text) : Option Nat :=
  (next (t.dropWhile Text.isBlank)).map (runLength Text.isBlank t + ·)

/-! ## The longest match of a terminal -/

/-- The rest of the line. -/
def restOfLine (t : Text) : Option Nat := some (runLength (· != '\n') t)

/-- A quoted literal after an opening `quote`. -/
def literal (quote : Char) (t : Text) : Option Nat := afterMark [quote] (quotedLength quote) t

/-- The length of an `@import` call of one string literal, white space allowed between its parts. -/
def importLength : Text → Option Nat :=
  afterMark "@import" <| afterBlanks <| afterMark "(" <| afterBlanks fun t =>
    match literal '"' t with
    | none => none
    | some n => (afterBlanks (afterMark ")" fun _ => some 0) (t.drop n)).map (n + ·)

/-- A run of `first` and then `p` characters. -/
def word (first p : Char → Bool) : Text → Option Nat
  | [] => none
  | c :: r => if first c then some (runLength p r + 1) else none

/-- A number, a run of operator characters, or a slash. -/
def otherLength (t : Text) : Option Nat :=
  word isNumeric (fun c => isNameChar c || c == '.') t <|> word isOperator isOperator t <|>
    afterMark "/" (fun _ => some 0) t

namespace Terminal

/-- How long a match of the terminal is at the start of the text, if it matches there. -/
def match? : Terminal → Text → Option Nat
  | importCall => importLength
  | docComment => afterMark "///" fun t => if t.head? = some '/' then none else restOfLine t
  | comment => afterMark "//" restOfLine
  | multilineString => afterMark "\\\\" restOfLine
  | quotedName => afterMark "@" (literal '"')
  | builtin => afterMark "@" (word isLetter isNameChar)
  | string => literal '"'
  | char => literal '\''
  | name => word isLetter isNameChar
  | leftBrace => afterMark "\x7b" fun _ => some 0
  | rightBrace => afterMark "\x7d" fun _ => some 0
  | semicolon => afterMark ";" fun _ => some 0
  | other => otherLength
  | blank => word isLayoutBlank isLayoutBlank

/-- All terminals, in decreasing priority. -/
def byPriority : List Terminal :=
  [importCall, docComment, comment, multilineString, quotedName, builtin, string, char, name,
    leftBrace, rightBrace, semicolon, other, blank]

/-- Whether matches of the terminal are skipped. -/
def isLayout : Terminal → Bool
  | comment | blank => true
  | _ => false

/-- The first terminal in order of priority that matches at the start of the text, and the length
of its match. -/
def first? (t : Text) : Option (Terminal × Nat) :=
  byPriority.findSome? fun k => (k.match? t).map (k, ·)

end Terminal

end ZigNif.Source
