import Respell.Proofs.Javascript.Asked
import Respell.Proofs.Tree.Nesting

/-!
Tail statements.

A function that is written with braces returns what its last statement is worth, and a conditional in that place, if it
is written as a statement, what the last statements of its branches are.  Which statements these are can be read off the
tree: `Tree.isTail` goes down from a function to its body, from a block to its last statement, and from a conditional to
its branches.
-/

namespace Respell

variable {tree : Tree} {n c : Node}

/-! ## Values -/

/-- A node of the kind can be written as an expression, given which of its children can. -/
def Kind.isValue : Kind → (values : List Bool) → Bool
  | .block, values => values.length == 1 && values.all id
  | .ifExpr, values => values.tail.all id
  | .parenExpr, values => values.all id
  | .forExpr, _ => false
  | .returnStmt, _ => false
  | _, _ => true

/-- Which nodes of a forest can be written as expressions. -/
def Forest.values : Forest Label → List Bool
  | nil => []
  | token _ rest => rest.values
  | node l inside rest => l.kind.isValue inside.values :: rest.values

namespace Node

/-- The node can be written as an expression. -/
def hasValue (n : Node) : Bool := n.kind.isValue n.elements.values

/-- The function can be written without braces: an arrow that keeps `this`, with plain parameters, and on the same line
an expression. -/
def isConcise (tree : Tree) (n : Node) : Bool :=
  (FunctionView.ofNode? tree n).any fun v =>
    v.isBound && v.params.all (fun q => q.binding.kind != .thisMember && q.default?.isNone) &&
      v.body.any fun b => !b.isIndented tree && b.hasValue

/-- Whether a node in tail position, or one that is not, has its child there. -/
def handsTail (tree : Tree) (n : Node) (isTail : Bool) (c : Node) : Bool :=
  match n.kind with
  | .function => c.kind == .block && !n.isConcise tree
  | .block => isTail && n.children.getLast?.any (·.id == c.id)
  | .ifExpr => isTail && (ConditionalView.ofNode? tree n).any fun v =>
      (v.consequent.toList ++ v.alternate.toList).any (·.id == c.id)
  | .parenExpr => isTail && !c.hasValue
  | _ => false

/-- The statements of the blocks in a node. -/
def statements (n : Node) : List Node := n.descendants.flatMap fun b => if b.kind = .block then b.children else []

end Node

namespace Tree

/-- The node is in tail position, given the nodes around it. -/
def isTailUnder (tree : Tree) : List Node → Node → Bool
  | [], _ => false
  | n :: above, c => n.handsTail tree (tree.isTailUnder above n) c

/-- The node is the body of a function with braces, or what is returned there is returned from it. -/
def isTail (tree : Tree) (n : Node) : Bool := tree.isTailUnder (tree.ancestors n.id) n

/-- `return` goes in front of the statement. -/
def isReturned (tree : Tree) (s : Node) : Bool :=
  tree.isTail s && match s.unwrapParens.kind with
    | .returnStmt => false
    | .forExpr => false
    | .ifExpr => !tree.isTail s.unwrapParens
    | _ => true

end Tree

/-! ## Going down -/

theorem Forest.values_eq (f : Forest Label) : f.values = f.nodes.map Node.hasValue := by
  induction f with
  | nil => rfl
  | token i rest ih => exact ih
  | node l inside rest _ ih => exact congrArg (_ :: ·) ih

theorem Node.hasValue_eq (n : Node) : n.hasValue = n.kind.isValue (n.children.map Node.hasValue) := by
  rw [Node.hasValue, Forest.values_eq]
  rfl

/-- Parentheses change nothing about that. -/
theorem Node.Sound.hasValue_unwrapParens (h : n.Sound tree) : n.unwrapParens.hasValue = n.hasValue := by
  refine Node.Sound.parens_induction (P := fun n => n.unwrapParens.hasValue = n.hasValue) ?_ ?_ n h
  · intro n _ hk
    rw [Node.unwrapParens_of_ne hk]
  · intro n c _ hk hchildren _ hunwrap _ _ ih
    rw [hunwrap, ih, n.hasValue_eq, hk, hchildren]
    simp [Kind.isValue]

namespace Tree

section

variable (h : tree.root.Sound tree) (hn : n ∈ tree.root.descendants)
include h hn

theorem isTail_child (hc : c ∈ n.children) : tree.isTail c = n.handsTail tree (tree.isTail n) c := by
  rw [isTail, tree.ancestors_child h.ids hn hc]
  rfl

/-- What stands in parentheses is in tail position unless it is a value. -/
theorem isTail_unwrapParens :
    tree.isTail n.unwrapParens = (tree.isTail n && !(n.kind == .parenExpr && n.hasValue)) := by
  refine Node.Sound.parens_induction (P := fun n => n ∈ tree.root.descendants →
    tree.isTail n.unwrapParens = (tree.isTail n && !(n.kind == .parenExpr && n.hasValue))) ?_ ?_ n
    (h.descendant hn).1 hn
  · intro n _ hk _
    rw [Node.unwrapParens_of_ne hk, beq_false_of_ne hk]
    simp
  · intro n c hsound hk hchildren hcsound hunwrap _ _ ih hn
    have hc : c ∈ n.children := by simp [hchildren]
    have hvalue : n.hasValue = c.hasValue := by
      rw [← hsound.hasValue_unwrapParens, hunwrap, hcsound.hasValue_unwrapParens]
    rw [hunwrap, ih (Node.descendants_child hn hc), tree.isTail_child h hn hc, Node.handsTail, hk, hvalue]
    cases c.hasValue <;> simp

end

end Tree

end Respell
