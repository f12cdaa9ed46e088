import ZigNif.Source.Token

/-!
# Source/Lexer — cutting source text into tokens

The lexer takes the first matching terminal again and again until the text ends or nothing matches.
The texts of the lexemes, layout included, follow one another without gap, so together with the
rest they are the source.
-/

namespace ZigNif.Source

/-- A place in a source text: how many characters are before it, and its line and column, both
counted from one.  Only a newline starts a line. -/
structure Position where
  offset : Nat := 0
  line : Nat := 1
  column : Nat := 1
  deriving DecidableEq, Repr

namespace Position

/-- The place after one more character. -/
def next (p : Position) (c : Char) : Position :=
  if c = '\n' then ⟨p.offset + 1, p.line + 1, 1⟩ else ⟨p.offset + 1, p.line, p.column + 1⟩

/-- The place after a text. -/
def advance (p : Position) (t : Text) : Position := t.foldl next p

end Position

/-- A terminal, the text it matched, and where that starts. -/
structure Token where
  terminal : Terminal
  text : Text
  position : Position
  deriving DecidableEq, Repr

/-- What a source text was cut into: its lexemes, and where the first character stands that no
terminal matches, if there is one. -/
structure Lexed where
  lexemes : List Token
  stop : Option Position
  deriving DecidableEq, Repr

/-- The lexemes with one more in front. -/
def Lexed.push (tok : Token) (l : Lexed) : Lexed := { l with lexemes := tok :: l.lexemes }

/-- The tokens: all lexemes but layout. -/
def Lexed.tokens (l : Lexed) : List Token := l.lexemes.filter fun tok => !tok.terminal.isLayout

/-- `lex` for a text that starts at the given place. -/
def lexFrom (p : Position) : Text → Lexed
  | [] => ⟨[], none⟩
  | c :: r =>
    match Terminal.first? (c :: r) with
    | some (terminal, n + 1) =>
      let text := (c :: r).take (n + 1)
      (lexFrom (p.advance text) (r.drop n)).push ⟨terminal, text, p⟩
    | _ => ⟨[], some p⟩
termination_by t => t.length
decreasing_by simp only [List.length_cons, List.length_drop]; omega

/-- Cuts a source text into lexemes. -/
def lex (t : Text) : Lexed := lexFrom {} t

end ZigNif.Source
