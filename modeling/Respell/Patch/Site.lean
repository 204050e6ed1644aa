import Respell.Scope
import Respell.Token.Lexer

/-!
Sites: where a construct stands in the source and in the scopes.
-/

namespace Respell

/-- The place of a construct. -/
structure Site where
  /-- The construct itself. -/
  node : Node
  /-- The outermost parentheses around it, or the construct. -/
  outer : Label
  /-- The scope it is evaluated in. -/
  scope : Nat
  /-- Its value is asked for. -/
  needsValue : Bool := false
deriving Repr

namespace Site

/-- The site of what a node holds inside its parentheses. -/
def ofNode (tree : Tree) (n : Node) : Site :=
  let inner := n.unwrapParens
  { node := inner, outer := n.toLabel, scope := tree.enclosing inner.id }

def kind (s : Site) : Kind := s.node.kind

/-- The text of the construct. -/
def content (s : Site) : Span := s.node.range

/-- The text of the construct with its parentheses. -/
def whole (s : Site) : Span := s.outer.range

def isParenthesized (s : Site) : Bool := s.whole != s.content

end Site

/-- The first token after `left` and before `right` that satisfies `p`. -/
def Tree.tokenBetween? (tree : Tree) (left right : Site) (p : Token → Bool) : Option Nat :=
  match left.outer.tokens, right.outer.tokens with
  | some (_, last), some (first, _) =>
    (List.range' (last + 1) (first - (last + 1))).find? fun i => (tree.token? i).any p
  | _, _ => none

/-- The first token of a kind between two sites. -/
def Tree.keywordBetween? (tree : Tree) (left right : Site) (kind : Kind) : Option Token :=
  (tree.tokenBetween? left right fun t => t.kind == kind).bind tree.token?

/-- Keywords that would be misread in front of `then`. -/
def clauseKeywords : KindSet := .ofList [.thenKw, .ifKw, .elseKw, .forKw]

/-- The text needs parentheses before `then` can follow it. -/
def requiresParens (text : List Char) : Bool :=
  (Lexed.ofText text).tokens.any fun t => clauseKeywords.contains t.kind

end Respell
