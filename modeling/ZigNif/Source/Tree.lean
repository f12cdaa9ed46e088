import ZigNif.Source.Lexer

/-!
# Source/Tree — tokens grouped by braces

A source text is well formed if the lexer reads all of it and its braces are balanced.  Its tree has
a node for every token and a group for every pair of braces.
-/

namespace ZigNif.Source

/-- A token, or a pair of braces around nodes. -/
inductive Node
  | leaf (token : Token)
  | group (opening : Token) (children : List Node) (closing : Token)
  deriving Repr

mutual

/-- The tokens of a node from left to right. -/
def Node.tokens : Node → List Token
  | .leaf tok => [tok]
  | .group opening children closing => opening :: Node.tokensOfList children ++ [closing]

/-- The tokens of a list of nodes from left to right. -/
def Node.tokensOfList : List Node → List Token
  | [] => []
  | n :: ns => n.tokens ++ Node.tokensOfList ns

end

/-- Why a text is no source: a character that starts no token, or a brace without its partner.  For
a missing closing brace the place is that of the last token. -/
inductive ShapeFault
  | character (place : Position)
  | token (place : Position)
  deriving DecidableEq, Repr

/-- A group that is still open: its brace, and the nodes before it. -/
structure OpenGroup where
  opening : Token
  before : List Node

/-- The nodes read so far at the innermost level, and the groups around them. -/
structure Nesting where
  nodes : List Node := []
  stack : List OpenGroup := []

namespace Nesting

/-- Reads one token. -/
def step (s : Nesting) (tok : Token) : Except ShapeFault Nesting :=
  match tok.terminal, s.stack with
  | .leftBrace, stack => .ok { nodes := [], stack := ⟨tok, s.nodes⟩ :: stack }
  | .rightBrace, [] => .error (.token tok.position)
  | .rightBrace, g :: stack => .ok { nodes := g.before ++ [.group g.opening s.nodes tok], stack }
  | _, _ => .ok { s with nodes := s.nodes ++ [.leaf tok] }

end Nesting

/-- The tree of a source text. -/
def forest (t : Text) : Except ShapeFault (List Node) := do
  let lexed := lex t
  let s ← lexed.tokens.foldlM Nesting.step {}
  match lexed.stop, s.stack, lexed.tokens.getLast? with
  | some place, _, _ => .error (.character place)
  | none, _ :: _, some tok => .error (.token tok.position)
  | none, _, _ => .ok s.nodes

end ZigNif.Source
