import ZigNif.Failure
import ZigNif.Source.Literal
import ZigNif.Source.Tree
import ZigNif.Text.Quoted

/-!
# Source/Parsed — the declarations and imports of a source file

At the top level a statement ends at a semicolon or, unless it declares a constant or a variable, at
a group of braces.  The name after `fn`, `const` or `var` is what the statement declares, and the
doc comments before its first token belong to it.  Imports count at every depth, but the interpreter
can look into so many groups from one another only.
-/

namespace ZigNif.Source

/-! ## What a source file holds -/

/-- The keyword of a declaration. -/
inductive DeclKind
  | fn
  | const
  | var
  deriving DecidableEq, Repr

namespace DeclKind

def keyword : DeclKind → Text
  | fn => "fn"
  | const => "const"
  | var => "var"

def ofKeyword? (t : Text) : Option DeclKind := [fn, const, var].find? fun k => k.keyword = t

end DeclKind

/-- A declaration at the top level, with the line of its name. -/
structure Decl where
  name : Text
  kind : DeclKind
  isPub : Bool
  doc : Option Text
  line : Nat
  deriving DecidableEq, Repr

/-- The declarations of a file in order, and the Zig files it imports, as written, each once. -/
structure Parsed where
  code : List Decl := []
  dependencies : List Text := []
  deriving DecidableEq, Repr

/-- Why a file cannot be parsed. -/
inductive Fault
  | shape (fault : ShapeFault)
  | literal (token : Token) (fault : Literal.Fault)
  | importCall (token : Token)
  deriving DecidableEq, Repr

namespace Fault

/-- The fault in words. -/
def message : Fault → Text
  | .shape (.character _) => "cannot parse zig source: UnexpectedCharacters"
  | .shape (.token _) => "cannot parse zig source: UnexpectedToken"
  | .literal tok fault => "bad string literal " ++ tok.text ++ ": " ++ fault.message
  | .importCall tok => "malformed @import token " ++ Text.quoted tok.text

/-- The place of the fault. -/
def position : Fault → Position
  | .shape (.character place) => place
  | .shape (.token place) => place
  | .literal tok _ => tok.position
  | .importCall tok => tok.position

end Fault

/-! ## Declarations -/

/-- The text of a literal that is part of a token. -/
def decodeIn (tok : Token) (raw : Text) : Except Fault Text :=
  match Literal.decode raw with
  | .ok t => .ok t
  | .error fault => .error (.literal tok fault)

/-- What a doc comment says: the text after its slashes, without one leading space. -/
def docText (tok : Token) : Text :=
  match tok.text.drop 3 with
  | ' ' :: t => t
  | t => t

/-- The name that a name token stands for. -/
def nameText (tok : Token) : Except Fault Text :=
  if tok.terminal = .quotedName then decodeIn tok ((tok.text.drop 2).dropLast)
  else .ok tok.text

/-- The statement being read: its doc comments, its words so far, whether anything else but doc
comments has been seen, and whether its name has been found. -/
structure Statement where
  docs : List Text := []
  words : List Text := []
  isStarted : Bool := false
  kind : Option DeclKind := none

/-- The declarations found so far, and the statement being read. -/
structure Scan where
  decls : List Decl := []
  statement : Statement := {}

namespace Scan

/-- Reads a name: it is what the statement declares, if it is the first one after a keyword. -/
def name (s : Scan) (tok : Token) : Except Fault Scan := do
  let st := s.statement
  let name ← nameText tok
  let words := st.words ++ [name]
  match st.kind, st.words.getLast?.bind DeclKind.ofKeyword? with
  | none, some kind =>
    let doc := if st.docs = [] then none else some (Text.unlines st.docs)
    let decl : Decl :=
      { name, kind, isPub := st.words.contains "pub".toList, doc, line := tok.position.line }
    pure ⟨s.decls ++ [decl], { st with isStarted := true, kind := some kind, words }⟩
  | _, _ => pure { s with statement := { st with isStarted := true, words } }

/-- Reads a node of the top level. -/
def step (s : Scan) : Node → Except Fault Scan
  | .group .. =>
    match s.statement.kind with
    | none | some .fn => .ok { s with statement := {} }
    | _ => .ok s
  | .leaf tok =>
    let st := s.statement
    match tok.terminal with
    | .docComment =>
      if st.isStarted then .ok s
      else .ok { s with statement := { st with docs := st.docs ++ [docText tok] } }
    | .semicolon => .ok { s with statement := {} }
    | .name | .quotedName => s.name tok
    | _ => .ok { s with statement := { st with isStarted := true } }

end Scan

/-- The declarations among the nodes of the top level. -/
def declarations (nodes : List Node) : Except Fault (List Decl) :=
  Scan.decls <$> nodes.foldlM Scan.step {}

/-! ## Imports -/

/-- The text before the closing quote of a literal, read after its opening quote. -/
def quotedPart : Text → Option Text
  | [] => none
  | '"' :: _ => some []
  | '\\' :: c :: r => if c = '\n' then none else (quotedPart r).map fun t => '\\' :: c :: t
  | c :: r => if c = '\\' then none else (quotedPart r).map (c :: ·)

/-- The inside of the first string literal in a text. -/
def firstQuoted? : Text → Option Text
  | [] => none
  | c :: r => (if c = '"' then quotedPart r else none) <|> firstQuoted? r

/-- The file that an `@import` call names. -/
def importTarget (tok : Token) : Except Fault Text :=
  match firstQuoted? tok.text with
  | some raw => decodeIn tok raw
  | none => .error (.importCall tok)

/-- The targets of all `@import` calls among the tokens, in order. -/
def importTargets (tokens : List Token) : Except Fault (List Text) :=
  (tokens.filter fun tok => tok.terminal = .importCall).mapM importTarget

/-- Whether the name is that of a Zig file. -/
def isZigFile (name : Text) : Bool := ".zig".toList.isSuffixOf name

/-! ## Parsing -/

/-- The declarations and imports of a source text. -/
def parse (t : Text) : Except Fault Parsed := do
  let nodes ← match forest t with
    | .ok nodes => .ok nodes
    | .error fault => .error (.shape fault)
  let code ← declarations nodes
  let targets ← importTargets (Node.tokensOfList nodes)
  pure { code, dependencies := Text.distinct (targets.filter isZigFile) }

/-- The span of a place in a file of the given name. -/
def Position.span (file : Option Text) (p : Position) : Span :=
  Span.located file (some { line := some (p.line : Int), column := some (p.column : Int) })

/-- Parses the text of a file; a fault becomes a build error at its place in that file.  However
deeply groups are nested, they are looked into. -/
def parseFile (file : Option Text) (t : Text) : Except BuildError Parsed :=
  match parse t with
  | .ok parsed => .ok parsed
  | .error fault =>
    .error { reason := BuildError.parseReason, message := fault.message,
             span := fault.position.span file }

/-! ## Nesting -/

/-- How many groups are open behind a token, if `depth` are open in front of it. -/
def Token.depthBehind (depth : Nat) (tok : Token) : Nat :=
  match tok.terminal with
  | .leftBrace => depth + 1
  | .rightBrace => depth - 1
  | _ => depth

/-- The tokens in front of a group that is opened inside of `limit` others, where `depth` are open
already, and whether these are all. -/
def reached (limit : Nat) : (depth : Nat) → List Token → List Token × Bool
  | _, [] => ([], true)
  | depth, tok :: toks =>
    if tok.terminal = .leftBrace ∧ limit ≤ depth then ([], false)
    else
      let (front, isAll) := reached limit (tok.depthBehind depth) toks
      (tok :: front, isAll)

/-- Whether the stack runs out on the look for imports, which follows groups into one another: the
shape and the declarations are read before, and so are the imports in front of the group. -/
def isTooDeep (limit : Nat) (t : Text) : Bool :=
  match forest t with
  | .error _ => false
  | .ok nodes =>
    let (front, isAll) := reached limit 0 (Node.tokensOfList nodes)
    !isAll && (declarations nodes).isOk && (importTargets front).isOk

/-- Parses the text of a file, as far as the stack allows. -/
def parseFileWithin (limit : Nat) (file : Option Text) (t : Text) : Except Failure Parsed :=
  if isTooDeep limit t then .error (.tooDeep " in comparison")
  else (parseFile file t).mapError .build

end ZigNif.Source
