import Respell.Tree.View

/-!
Scopes: which names a program declares, reads and can still take.

The program and each function are a scope; a scope is named by the number of its node.  Every node
stands in its tree in a *role*: it is read, it is bound, it is a parameter, or it says nothing about
names.  The occurrences of nodes with their roles, parents before children, are all that scopes are
made of:

* an identifier that is bound is declared in its scope, and is *the* declaration of its name if no scope
  around it has declared that name before;
* a parameter is declared in its function;
* an identifier that is read keeps its name from being taken anywhere.
-/

namespace Respell

/-- What a node does with the names in it. -/
inductive Role where
  | read
  | bind
  /-- The list of parameters of a function. -/
  | params
  | param
  /-- Nothing. -/
  | silent
deriving DecidableEq, Repr

/-- The roles of the child nodes of `parent`, by their place among them. -/
def Role.ofChild (tree : Tree) (parent : Node) : Role → (place : Nat) → (child : Label) → Role
  | .params => fun _ _ => .param
  | .param => fun place _ =>
    if parent.kind = .defaultParam then
      match place with
      | 0 => .param
      | 1 => .read
      | _ => .silent
    else
      .silent
  | .silent => fun _ _ => .silent
  | role =>
    match parent.kind with
    | .array => fun _ _ => role
    | .function => fun _ child =>
      match child.kind with
      | .paramList => .params
      | .block => .read
      | _ => .silent
    | .assign | .existsAssign => fun place _ =>
      match place with
      | 0 => .bind
      | 1 => .read
      | _ => .silent
    | .forExpr =>
      let bound := (LoopView.ofNode? tree parent).elim [] fun v =>
        (v.key.toList ++ v.value.toList).map (·.id)
      fun _ child => if child.id ∈ bound then .bind else .read
    | _ => fun _ _ => .read

/-- A node, its role, and the scopes it stands in, the innermost first. -/
structure Occurrence where
  node : Node
  role : Role
  chain : List Nat
deriving Repr

/-- The scopes that the inside of a node stands in. -/
def Label.innerChain (l : Label) (chain : List Nat) : List Nat :=
  if l.kind = .function then l.id :: chain else chain

/-- The occurrences in a forest, parents before children. -/
def Forest.occurrences (tree : Tree) (roleOf : Nat → Label → Role) (chain : List Nat) :
    (place : Nat) → Forest Label → List Occurrence
  | _, .nil => []
  | place, .token _ rest => rest.occurrences tree roleOf chain place
  | place, .node l inside rest =>
    let role := roleOf place l
    ⟨⟨l, inside⟩, role, chain⟩ ::
      (inside.occurrences tree (Role.ofChild tree ⟨l, inside⟩ role) (l.innerChain chain) 0 ++
        rest.occurrences tree roleOf chain (place + 1))

/-- The occurrences below the root. -/
def Tree.occurrences (tree : Tree) : List Occurrence :=
  tree.root.elements.occurrences tree (fun _ _ => .read) [tree.root.id] 0

/-! ## Building -/

/-- The names of one function or program. -/
structure Scope where
  /-- The node that owns the scope. -/
  owner : Nat
  /-- The scope and those around it, the innermost first. -/
  chain : List Nat
  declared : List String := []
  /-- Names given out to temporaries. -/
  claimed : List String := []
  /-- For a hint, how many candidates are known to be taken. -/
  passed : List (String × Nat) := []
deriving Repr

structure Scopes where
  /-- The owner of the outermost scope. -/
  root : Nat
  scopes : List Scope
  reads : List String := []
  /-- Identifiers that are the declaration of their name. -/
  declarations : List Nat := []
deriving Repr

namespace Scopes

def scope? (s : Scopes) (owner : Nat) : Option Scope := s.scopes.find? fun c => c.owner == owner

/-- The scope and those around it, the innermost first. -/
def chain (s : Scopes) (owner : Nat) : List Nat := ((s.scope? owner).map Scope.chain).getD []

/-- The scope records of the chain. -/
def around (s : Scopes) (owner : Nat) : List Scope := (s.chain owner).filterMap s.scope?

def isDeclared (s : Scopes) (owner : Nat) (name : String) : Bool :=
  (s.around owner).any fun c => c.declared.contains name

/-- The name is declared or claimed in the chain, or read anywhere. -/
def isBound (s : Scopes) (owner : Nat) (name : String) : Bool :=
  s.reads.contains name ||
    (s.around owner).any fun c => c.declared.contains name || c.claimed.contains name

/-- Changes one scope. -/
def modify (s : Scopes) (owner : Nat) (f : Scope → Scope) : Scopes :=
  { s with scopes := s.scopes.map fun c => if c.owner == owner then f c else c }

def declare (s : Scopes) (owner : Nat) (name : String) : Scopes :=
  s.modify owner fun c => { c with declared := name :: c.declared }

/-- Takes note of one node. -/
def see (tree : Tree) (s : Scopes) (o : Occurrence) : Scopes :=
  let owner := o.chain.headD s.root
  match o.node.kind, o.role with
  | .ident, .read => { s with reads := tree.nodeText o.node :: s.reads }
  | .ident, .bind =>
    let name := tree.nodeText o.node
    let s := if s.isDeclared owner name then s
      else { s with declarations := o.node.id :: s.declarations }
    s.declare owner name
  | .ident, .param => s.declare owner (tree.nodeText o.node)
  | .function, .read | .function, .bind =>
    { s with scopes := s.scopes ++ [{ owner := o.node.id, chain := o.node.id :: o.chain }] }
  | _, _ => s

def ofTree (tree : Tree) : Scopes :=
  let root := tree.root.id
  tree.occurrences.foldl (see tree) { root, scopes := [{ owner := root, chain := [root] }] }

/-- The identifier is the first binding of its name. -/
def isDeclaration (s : Scopes) (n : Node) : Bool := s.declarations.contains n.id

/-! ## Taking names -/

/-- How many candidates there are for a hint. -/
def candidateCount : Nat := 10000

/-- The hint itself, then the hint followed by 1, 2, … -/
def candidate (hint : String) : Nat → String
  | 0 => hint
  | n + 1 => hint ++ toString (n + 1)

/-- The first of `count` candidates from `first` on that is not taken. -/
def firstFree (taken : String → Bool) (hint : String) : (first count : Nat) → Option Nat
  | _, 0 => none
  | first, count + 1 =>
    if taken (candidate hint first) then firstFree taken hint (first + 1) count else some first

/-- How many candidates for the hint are known to be taken: names are never given back, so those
passed by an earlier claim need no second look. -/
def passed (s : Scopes) (owner : Nat) (hint : String) : Nat :=
  ((s.scope? owner).bind fun c => c.passed.lookup hint).getD 0

/-- Takes the first candidate for the hint that is not bound in the chain. -/
def claim? (s : Scopes) (owner : Nat) (hint : String) : Option (String × Scopes) :=
  let first := s.passed owner hint
  (firstFree (s.isBound owner) hint first (candidateCount - first)).map fun n =>
    let name := candidate hint n
    (name, s.modify owner fun c =>
      { c with
        claimed := name :: c.claimed
        passed := (hint, n + 1) :: c.passed.filter fun p => p.1 != hint })

end Scopes

/-! ## Questions about nodes -/

namespace Tree

/-- The innermost scope strictly around a node; the root's own for the root. -/
def enclosing (tree : Tree) (id : Nat) : Nat :=
  (((tree.ancestors id).find? fun n => n.kind == .function).map (·.id)).getD tree.root.id

/-- How often the name occurs as an identifier in a node. -/
def countUsages (tree : Tree) (n : Node) (name : String) : Nat :=
  n.descendants.countP fun d => d.kind == .ident && tree.nodeText d == name

/-- The block, given by its parent, is the body of a program or a function. -/
def isScopeBody : (parent : Option Node) → Bool
  | some p => p.kind == .program || p.kind == .function
  | none => true

/-- The nearest block among the nodes around a node, and the node around that. -/
def nearestBlock? : List Node → Option (Node × Option Node)
  | [] => none
  | n :: around => if n.kind = .block then some (n, around.head?) else nearestBlock? around

/-- Every use of the node's name in its scope lies in the block around the node, so a declaration in
that block is seen by all of them. -/
def isBlockLocal (tree : Tree) (n : Node) : Bool :=
  match nearestBlock? (tree.ancestors n.id) with
  | none => true
  | some (block, parent) =>
    isScopeBody parent ||
      let name := tree.nodeText n
      let scope := (tree.node? (tree.enclosing n.id)).getD tree.root
      scope.descendants.all fun d =>
        !(d.kind == .ident && tree.nodeText d == name) || block.range.contains d.range

end Tree

end Respell
