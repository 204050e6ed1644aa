import Respell.Normalize

/-!
Normalizing as a translation of trees.

The text of a node is put together from the texts of the nodes in it.  Nothing is edited: a node is its
source with other text in place of some pieces,

    patchwork text start stop [(r₁, x₁), …]  =  source [start, r₁)  x₁  source [r₁, …)  …  stop)

and a loop or conditional whose keyword follows its body is written with the header in front.
-/

namespace Respell.Normalize

/-- A text that depends on the names that are free; none if no name is left. -/
abbrev Translating := StateT Scopes Option

/-- A range and the text that stands in its place. -/
abbrev Piece := Span × List Char

/-- The source of a range. -/
def source (text : List Char) (range : Span) : List Char := (Text.slice? text range).getD []

/-- The source from `start` to `stop` with other text in place of pieces of it, from left to right. -/
def patchwork (text : List Char) (start stop : Nat) : List Piece → List Char
  | [] => source text ⟨start, stop⟩
  | (range, new) :: more => source text ⟨start, range.start⟩ ++ new ++ patchwork text range.stop stop more

/-- Takes a name for a temporary. -/
def claimName (scope : Nat) (hint : String) : Translating String := fun s => s.claim? scope hint

section Step

variable (tree : Tree) (of : Node → Translating (List Char))

/-- A node in its place. -/
def inPlace (n : Node) : Translating Piece := do return (n.range, ← of n)

/-- A part of a header that moves: in parentheses if it could not be followed by `then`. -/
def guarded (n : Node) (text : List Char) : List Char :=
  if n.kind ≠ .parenExpr ∧ requiresParens (source tree.text n.range) then ['('] ++ text ++ [')'] else text

/-- What stands for the value of a loop in its header, and the statement that takes it apart if it is more
than names and arrays of names. -/
def valueText (scope : Nat) : Option Node → Translating (List Piece × Option (List Char))
  | none => return ([], none)
  | some value => do
    if bindsDirectly value.toForest then
      return ([← inPlace of value], none)
    else
      let name ← claimName scope "value"
      let pattern ← of value
      return ([(value.range, name.toList)], some (pattern ++ " = ".toList ++ name.toList))

/-- A statement in front of a body: on a line of its own if the body starts its line. -/
def lineBefore (body : Node) (line : List Char) : List Char :=
  match Text.lineIndent? tree.text body.range.start with
  | some indent => line ++ ['\n'] ++ indent.toList
  | none => line ++ "; ".toList

def loopText (n : Node) (v : LoopView) : Translating (List Char) := do
  let keyword ← v.forToken.bind tree.token?
  let target ← v.target
  let body ← v.body
  let isTrailing := decide (body.range.start < keyword.range.start)
  let headerPart (c : Node) : Translating Piece := do
    let text ← of c
    return (c.range, if isTrailing then guarded tree c text else text)
  let key ← v.key.toList.mapM (inPlace of)
  let (value, line) ← valueText of (tree.enclosing n.id) v.value
  let target ← headerPart target
  let filter ← v.filter.toList.mapM headerPart
  let bodyText ← of body
  let header := (if v.isOf then key ++ value else value ++ key) ++ target :: filter
  if isTrailing then
    return patchwork tree.text keyword.range.start n.range.stop header ++ " then ".toList ++
      (line.map (· ++ "; ".toList)).getD [] ++ bodyText
  else
    return patchwork tree.text n.range.start n.range.stop
      (header ++ [(body.range, (line.map (lineBefore tree body)).getD [] ++ bodyText)])

/-- A conditional whose keyword follows its body. -/
def conditionalText (n : Node) (v : ConditionalView) : Translating (List Char) := do
  let keyword ← v.ifToken.bind tree.token?
  let condition ← v.condition
  let body ← v.consequent
  let conditionText ← of condition
  let bodyText ← of body
  return patchwork tree.text keyword.range.start n.range.stop
    [(condition.range, guarded tree condition conditionText)] ++ " then ".toList ++ bodyText

/-- The text of a node, given those of the nodes in it. -/
def nodeText (n : Node) : Translating (List Char) := do
  match LoopView.ofNode? tree n, (ConditionalView.ofNode? tree n).filter (·.isTrailing) with
  | some v, _ => loopText tree of n v
  | none, some v => conditionalText tree of n v
  | none, none => return patchwork tree.text n.range.start n.range.stop (← n.children.mapM (inPlace of))

end Step

/-- The texts of the nodes among the elements of a forest, by their numbers. -/
def texts (tree : Tree) : Forest Label → List (Nat × Translating (List Char))
  | .nil => []
  | .token _ rest => texts tree rest
  | .node l inside rest =>
    let of (c : Node) : Translating (List Char) := ((texts tree inside).lookup c.id).getD failure
    (l.id, nodeText tree of ⟨l, inside⟩) :: texts tree rest

/-- The text of a node. -/
def textOf (tree : Tree) (n : Node) : Translating (List Char) :=
  nodeText tree (fun c => ((texts tree n.elements).lookup c.id).getD failure) n

/-- The normalized text of a tree, read off the tree. -/
def translation (tree : Tree) : Option String := do
  let (text, _) ← (textOf tree tree.root).run (.ofTree tree)
  return String.ofList (patchwork tree.text 0 (Text.byteLength tree.text) [(tree.root.range, text)])

end Respell.Normalize
