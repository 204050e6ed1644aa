import Respell.Patch.Patcher

/-!
Assembling the patchers of a tree.

A tree is folded from the bottom: the patcher of a node is put together from what the nodes below it
became.  One of them may have become an error, and which error comes out is decided by the order in which
the node asks for its parts.
-/

namespace Respell

variable {κ : Type}

/-- What the nodes below a node became, by their numbers, parents before children. -/
abbrev Results (κ : Type) := List (Nat × Except PatchError (Patcher κ))

/-- What all nodes of a forest become, given how one node is put together. -/
def Forest.results (f : Node → Results κ → Except PatchError (Patcher κ)) : Forest Label → Results κ
  | .nil => []
  | .token _ rest => rest.results f
  | .node l inside rest =>
    let below := inside.results f
    (l.id, f ⟨l, inside⟩ below) :: (below ++ rest.results f)

/-- What a node becomes. -/
def Node.fold (f : Node → Results κ → Except PatchError (Patcher κ)) (n : Node) :
    Except PatchError (Patcher κ) :=
  f n (n.elements.results f)

/-- A patcher below another one: its place there and its site. -/
structure Part where
  place : Nat
  site : Site
deriving Repr

/-- Collects the patchers below a construct, in order. -/
abbrev Assembly (κ : Type) := StateT (List (Patcher κ)) (Except PatchError)

namespace Assembly

def stop {α : Type} (cause : Obstacle) (range : Span) : Assembly κ α := throw (.obstacle cause range)

/-- Takes a node below as the next part. -/
def part (results : Results κ) (n : Node) : Assembly κ Part := do
  match results.lookup n.id with
  | some (.ok p) =>
    let parts ← get
    set (parts ++ [p])
    return ⟨parts.length, p.site⟩
  | some (.error e) => throw e
  | none => stop (.lacks "construct" n.kind.describe) n.range

/-- Takes a node below that may be absent. -/
def part? (results : Results κ) : Option Node → Assembly κ (Option Part)
  | some n => some <$> part results n
  | none => return none

/-- The value of an option that the construct cannot do without. -/
def need {α : Type} (cause : Obstacle) (range : Span) : Option α → Assembly κ α
  | some a => return a
  | none => stop cause range

/-- The patcher of a node: parentheses are those of the construct in them, all else is a construct with
the collected parts. -/
def patcher (tree : Tree) (construct : Node → Results κ → Assembly κ κ) (n : Node)
    (results : Results κ) : Except PatchError (Patcher κ) := do
  let inside := if n.kind = .parenExpr then results.head? else none
  match inside with
  | some (_, p) => return (← p).withOuter n.toLabel
  | none =>
    let (k, parts) ← (construct n results).run []
    return .new (.ofNode tree n) k parts

end Assembly

namespace Script

/-- Patches a part. -/
def patchPart (p : Part) : Script Context κ Unit := patch p.place

/-- Patches a part and gives its text, with what was put in at its start. -/
def patchAndRender (p : Part) : Script Context κ String := do
  patchPart p
  Patching.renderRangeInclusive p.site.whole

/-- Stops in front of an obstacle. -/
def stop {α : Type} (cause : Obstacle) (range : Span) : Script Context κ α := fail (.obstacle cause range)

end Script

/-- Runs a whole tree of patchers: prepares it, then patches it. -/
def Patcher.runAll (h : Hooks Context κ) (p : Patcher κ) : Patching Unit := fun cx =>
  let prepared := p.call h .prepare cx
  match prepared.result with
  | .error e => (.error e, prepared.context)
  | .ok () =>
    let patched := prepared.patcher.call h .patch prepared.context
    (patched.result, patched.context)

end Respell
