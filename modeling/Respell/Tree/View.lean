import Respell.Tree.Basic

/-!
Views: the roles that the elements of a node play.

A view is read off the direct elements from left to right.  A part that the source lacks is absent from
the view, so trees with faults have views too.
-/

namespace Respell

/-! ## Loops -/

/-- A loop, its header in front of the body or after it. -/
structure LoopView where
  forToken : Option Nat := none
  thenToken : Option Nat := none
  isOf : Bool := false
  key : Option Node := none
  value : Option Node := none
  target : Option Node := none
  filter : Option Node := none
  body : Option Node := none
deriving Repr

namespace LoopView

/-- What has been seen of a loop. -/
structure Scan where
  view : LoopView := {}
  bindings : List Node := []
  seenIn : Bool := false
  seenWhen : Bool := false

/-- A token of the loop. -/
def Scan.token (s : Scan) (index : Nat) : Kind → Scan
  | .forKw => { s with view.forToken := some index }
  | .thenKw => { s with view.thenToken := some index }
  | .inKw => { s with seenIn := true, view.isOf := false }
  | .ofKw => { s with seenIn := true, view.isOf := true }
  | .whenKw => { s with seenWhen := true }
  | _ => s

/-- A node of the loop: the body if it stands before the keyword, then the bindings, the target, the
filter if one is announced, and the body. -/
def Scan.node (s : Scan) (n : Node) : Scan :=
  if s.view.forToken.isNone then { s with view.body := some n }
  else if !s.seenIn then { s with bindings := s.bindings ++ [n] }
  else if s.view.target.isNone then { s with view.target := some n }
  else if s.seenWhen && s.view.filter.isNone then { s with view.filter := some n }
  else { s with view.body := some n }

def Scan.item (tree : Tree) (s : Scan) : Item → Scan
  | .token i => s.token i (tree.kindAt i)
  | .node n => s.node n

/-- A loop over properties names the key first, one over elements the value. -/
def Scan.finish (s : Scan) : LoopView :=
  if s.view.isOf then { s.view with key := s.bindings[0]?, value := s.bindings[1]? }
  else { s.view with value := s.bindings[0]?, key := s.bindings[1]? }

def ofNode? (tree : Tree) (n : Node) : Option LoopView :=
  if n.kind = .forExpr then some (n.items.foldl (Scan.item tree) {}).finish else none

end LoopView

/-! ## Conditionals -/

/-- A conditional.  It is trailing if its keyword follows what it decides about. -/
structure ConditionalView where
  ifToken : Option Nat := none
  thenToken : Option Nat := none
  elseToken : Option Nat := none
  isTrailing : Bool := false
  condition : Option Node := none
  consequent : Option Node := none
  alternate : Option Node := none
deriving Repr

namespace ConditionalView

def token (v : ConditionalView) (index : Nat) : Kind → ConditionalView
  | .ifKw => if v.ifToken.isNone then { v with ifToken := some index } else v
  | .thenKw => { v with thenToken := some index }
  | .elseKw => { v with elseToken := some index }
  | _ => v

def node (v : ConditionalView) (n : Node) : ConditionalView :=
  if v.ifToken.isNone then { v with isTrailing := true, consequent := some n }
  else if v.condition.isNone then { v with condition := some n }
  else if v.elseToken.isSome then { v with alternate := some n }
  else { v with consequent := some n }

def item (tree : Tree) (v : ConditionalView) : Item → ConditionalView
  | .token i => v.token i (tree.kindAt i)
  | .node n => v.node n

def ofNode? (tree : Tree) (n : Node) : Option ConditionalView :=
  if n.kind = .ifExpr then some (n.items.foldl (item tree) {}) else none

end ConditionalView

/-! ## Functions -/

/-- A parameter: what it binds and the value it takes when none is given. -/
structure ParamView where
  node : Node
  binding : Node
  default? : Option Node
deriving Repr

def ParamView.ofNode (n : Node) : ParamView :=
  if n.kind = .defaultParam then ⟨n, n.children[0]?.getD n, n.children[1]?⟩ else ⟨n, n, none⟩

structure FunctionView where
  arrow : Option Nat
  paramList : Option Node
  body : Option Node
  /-- A bound function keeps the `this` around it. -/
  isBound : Bool
deriving Repr

namespace FunctionView

def ofNode? (tree : Tree) (n : Node) : Option FunctionView :=
  if n.kind = .function then
    let arrow := n.ownTokens.find? fun i => tree.kindAt i == .arrow || tree.kindAt i == .fatArrow
    some
      { arrow
        paramList := n.children.find? fun c => c.kind == .paramList
        body := n.children.find? fun c => c.kind == .block
        isBound := arrow.any fun i => tree.kindAt i == .fatArrow }
  else
    none

def params (v : FunctionView) : List ParamView :=
  match v.paramList with
  | some list => list.children.map ParamView.ofNode
  | none => []

end FunctionView

/-! ## Assignments and names -/

structure AssignmentView where
  lhs : Option Node
  rhs : Option Node
  /-- It assigns only where there is no value yet. -/
  isExistence : Bool
deriving Repr

def AssignmentView.ofNode? (n : Node) : Option AssignmentView :=
  if n.kind = .assign ∨ n.kind = .existsAssign then
    some ⟨n.children[0]?, n.children[1]?, n.kind == .existsAssign⟩
  else
    none

/-- The name that an identifier or a member of `this` spells. -/
def Tree.nameOf? (tree : Tree) (n : Node) : Option String :=
  match n.kind with
  | .ident => some (tree.nodeText n)
  | .thisMember => (n.ownTokens.find? fun i => tree.kindAt i == .name).map tree.tokenText
  | _ => none

end Respell
