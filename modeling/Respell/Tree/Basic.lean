import Respell.Tree.Forest

/-!
Syntax trees: labelled nodes over the tokens of a text.

Labels follow from the events.  Nodes are numbered in the order in which they start.  The *reach* of a
node is its first and last significant token; its range covers the significant tokens in it, and a
node without one stands, empty, where the last significant token before it ended.
-/

namespace Respell

/-- What a node knows of itself. -/
structure Label where
  id : Nat
  kind : Kind
  range : Span
  /-- The first and the last significant token. -/
  tokens : Option (Nat × Nat)
deriving DecidableEq, Repr

/-- A node with everything below it. -/
structure Node extends Label where
  elements : Forest Label
deriving DecidableEq, Repr

/-- A direct element of a node. -/
inductive Item where
  | token (index : Nat)
  | node (node : Node)
deriving DecidableEq, Repr

/-! ## Labelling -/

/-- The significant tokens of a part of the tree: first, last, and the span of all. -/
structure Reach where
  first : Nat
  last : Nat
  range : Span
deriving DecidableEq, Repr

namespace Reach

/-- The reach of two parts, the left one first. -/
def join : Option Reach → Option Reach → Option Reach
  | none, r => r
  | l, none => l
  | some l, some r => some ⟨l.first, r.last, l.range.cover r.range⟩

/-- The reach of one token. -/
def ofToken (tokens : List Token) (index : Nat) : Option Reach :=
  match tokens[index]? with
  | some t => if t.isSignificant then some ⟨index, index, t.range⟩ else none
  | none => none

end Reach

/-- A labelled forest, the number of the next node, the end of the last significant token, and the
reach. -/
structure Labelled where
  forest : Forest Label
  next : Nat
  lastEnd : Nat
  reach : Option Reach

/-- The end of the last significant token once token `index` has passed. -/
def lastEndAfter (tokens : List Token) (index lastEnd : Nat) : Nat :=
  match Reach.ofToken tokens index with
  | some r => r.range.stop
  | none => lastEnd

/-- Labels a forest whose first node gets the number `next`. -/
def Forest.label (tokens : List Token) : Forest Kind → (next lastEnd : Nat) → Labelled
  | .nil, next, lastEnd => ⟨.nil, next, lastEnd, none⟩
  | .token i rest, next, lastEnd =>
    let r := rest.label tokens next (lastEndAfter tokens i lastEnd)
    ⟨.token i r.forest, r.next, r.lastEnd, Reach.join (Reach.ofToken tokens i) r.reach⟩
  | .node k inside rest, next, lastEnd =>
    let a := inside.label tokens (next + 1) lastEnd
    let b := rest.label tokens a.next a.lastEnd
    let label : Label :=
      { id := next
        kind := k
        range := (a.reach.map Reach.range).getD (.empty lastEnd)
        tokens := a.reach.map fun r => (r.first, r.last) }
    ⟨.node label a.forest b.forest, b.next, b.lastEnd, Reach.join a.reach b.reach⟩

/-! ## Walking -/

namespace Forest

/-- The direct elements. -/
def items : Forest Label → List Item
  | .nil => []
  | .token i rest => .token i :: rest.items
  | .node l inside rest => .node ⟨l, inside⟩ :: rest.items

/-- The nodes among the direct elements. -/
def nodes : Forest Label → List Node
  | .nil => []
  | .token _ rest => rest.nodes
  | .node l inside rest => ⟨l, inside⟩ :: rest.nodes

/-- The tokens among the direct elements. -/
def ownTokens : Forest Label → List Nat
  | .nil => []
  | .token i rest => i :: rest.ownTokens
  | .node _ _ rest => rest.ownTokens

/-- All nodes, parents before children. -/
def descendants : Forest Label → List Node
  | .nil => []
  | .token _ rest => rest.descendants
  | .node l inside rest => ⟨l, inside⟩ :: (inside.descendants ++ rest.descendants)

/-- All nodes, parents before children, each with the number of its parent. -/
def parented (parent : Option Nat) : Forest Label → List (Option Nat × Node)
  | .nil => []
  | .token _ rest => rest.parented parent
  | .node l inside rest =>
    (parent, ⟨l, inside⟩) :: (inside.parented (some l.id) ++ rest.parented parent)

/-- The nodes from the top down to node `id`. -/
def path? (id : Nat) : Forest Label → Option (List Node)
  | .nil => none
  | .token _ rest => rest.path? id
  | .node l inside rest =>
    if l.id = id then some [⟨l, inside⟩]
    else
      match inside.path? id with
      | some below => some (⟨l, inside⟩ :: below)
      | none => rest.path? id

/-- One line per node, two blanks for each level. -/
def dump (depth : Nat) : Forest Label → String
  | .nil => ""
  | .token _ rest => rest.dump depth
  | .node l inside rest =>
    String.ofList (List.replicate (2 * depth) ' ') ++ l.kind.label ++ "@" ++ l.range.text ++ "\n"
      ++ inside.dump (depth + 1) ++ rest.dump depth

/-- The node inside the parentheses of `self`, whose elements these are. -/
def unwrap (self : Node) : Forest Label → Node
  | .nil => self
  | .token _ rest => rest.unwrap self
  | .node l inside _ => if l.kind = .parenExpr then inside.unwrap ⟨l, inside⟩ else ⟨l, inside⟩

end Forest

namespace Node

/-- The forest of this node alone. -/
def toForest (n : Node) : Forest Label := .node n.toLabel n.elements .nil

def items (n : Node) : List Item := n.elements.items

def children (n : Node) : List Node := n.elements.nodes

def ownTokens (n : Node) : List Nat := n.elements.ownTokens

/-- The node and all nodes below it, parents before children. -/
def descendants (n : Node) : List Node := n.toForest.descendants

/-- The node that any number of parentheses around it hold. -/
def unwrapParens (n : Node) : Node := if n.kind = .parenExpr then n.elements.unwrap n else n

/-- Kind and range, as notes and dumps write them. -/
def note (n : Node) : String := n.kind.label ++ "@" ++ n.range.text

end Node

/-! ## Trees -/

/-- A text, its tokens and comments, and the node that holds them all. -/
structure Tree where
  text : List Char
  tokens : List Token
  comments : List Comment
  root : Node
deriving Repr

namespace Tree

/-- The tree that events describe over a token stream; its root is the last node that stands in no
other.  There is none without a node, or with an event for a token that does not exist. -/
def ofEvents? (text : List Char) (tokens : List Token) (comments : List Comment)
    (events : List Event) : Option Tree :=
  let forest := Forest.ofEvents events
  if events.all fun | .token i => i < tokens.length | _ => true then
    (forest.label tokens 0 0).forest.nodes.getLast?.map fun root =>
      { text, tokens, comments, root }
  else
    none

def token? (t : Tree) (index : Nat) : Option Token := t.tokens[index]?

/-- The kind of a token; past the end it is the end mark. -/
def kindAt (t : Tree) (index : Nat) : Kind := ((t.token? index).map Token.kind).getD .eof

/-- The text of a token; past the end it is empty. -/
def tokenText (t : Tree) (index : Nat) : String :=
  match t.token? index with
  | some token => Text.slice t.text token.range
  | none => ""

/-- The text in the range of a node. -/
def nodeText (t : Tree) (n : Node) : String := Text.slice t.text n.range

/-- The nodes from the root down to node `id`. -/
def path (t : Tree) (id : Nat) : List Node := (t.root.toForest.path? id).getD []

def node? (t : Tree) (id : Nat) : Option Node := (t.path id).getLast?

/-- The nodes around node `id`, the nearest first. -/
def ancestors (t : Tree) (id : Nat) : List Node := (t.path id).dropLast.reverse

/-- One line per node, two blanks for each level. -/
def dump (t : Tree) : String := t.root.toForest.dump 0

/-- The sizes of a tree, as debug output writes them. -/
def summary (t : Tree) : String :=
  s!"SyntaxTree \x7b text_len: {Text.byteLength t.text}, tokens: {t.tokens.length}, " ++
    s!"comments: {t.comments.length}, .. \x7d"

end Tree

end Respell
