import Respell.Patch.Assembly

/-!
The constructs of a normalized program, each with what its JavaScript needs to know, and how they are put
together from a tree.
-/

namespace Respell.Javascript

/-- A name that an assignment introduces. -/
structure Declaration where
  name : String
  /-- It is used outside the block that the assignment stands in. -/
  escapes : Bool
deriving Repr

structure Assignment where
  lhs : Part
  rhs : Part
  /-- It assigns only where there is no value yet. -/
  isExistence : Bool
  declares : List Declaration
  /-- Every name in the target is new. -/
  declaresAll : Bool

/-- A name that a loop header binds. -/
structure LoopBinding where
  name : String
  isDeclaration : Bool
  escapes : Bool
deriving Repr

structure Loop where
  key : Option Part
  value : Option Part
  target : Part
  filter : Option Part
  body : Part
  isOf : Bool
  bindings : List LoopBinding

structure Param where
  /-- Where the name stands, with its `@` for a member. -/
  binding : Span
  name : String
  /-- The argument is kept as a member of `this`. -/
  isMember : Bool
  /-- From the end of the binding to the end of the default value. -/
  defaultRange : Span
  default? : Option Part

structure Function where
  params : List Param
  paramList : Option Span
  arrow : Token
  body : Option Part
  /-- It is written without braces. -/
  isConcise : Bool := false

structure Conditional where
  condition : Part
  consequent : Part
  /-- A block, or the next conditional of a chain. -/
  alternate : Option Part
  /-- Its branches return their last statements. -/
  returns : Bool := false

structure Block where
  /-- It is the body of a program or a function. -/
  isScopeBody : Bool
  /-- Its last statement is to be returned. -/
  returns : Bool := false
  /-- `return` goes in front of its last statement. -/
  returnsLast : Bool := false

inductive Construct where
  | block (b : Block)
  | conditional (c : Conditional)
  | loop (l : Loop)
  | function (f : Function)
  | assignment (a : Assignment)
  | returning (value : Option Part)
  /-- An expression over expressions, some of its tokens spelled differently. -/
  | expression (respelled : List (Span × String))

/-! ## Spelling -/

/-- How JavaScript spells an operator, if differently. -/
def operator? : Kind → (text : String) → Option String
  | .andKw, _ => some "&&"
  | .orKw, _ => some "||"
  | .isKw, _ => some "==="
  | .isntKw, _ => some "!=="
  | .operator, "==" => some "==="
  | .operator, "!=" => some "!=="
  | _, _ => none

/-- The first token of a kind among the direct elements of a node. -/
def ownToken? (tree : Tree) (n : Node) (kind : Kind) : Option Token :=
  (n.ownTokens.filterMap tree.token?).find? fun t => t.kind == kind

/-- The tokens of an expression that are spelled differently.  `not a` becomes `!a`, so what stands
between the word and its operand goes too. -/
def respelled (tree : Tree) (n : Node) : List (Span × String) :=
  match n.kind with
  | .binaryExpr =>
    (n.ownTokens.filterMap tree.token?).filterMap fun t =>
      (operator? t.kind (Text.slice tree.text t.range)).map fun text => (t.range, text)
  | .prefixExpr =>
    (ownToken? tree n .notKw).toList.map fun t =>
      let stop := (n.children.head?.map (·.range.start)).getD t.range.stop
      (⟨t.range.start, stop⟩, "!")
  | .thisMember => (ownToken? tree n .atSign).toList.map fun t => (t.range, "this.")
  | .this => (ownToken? tree n .atSign).toList.map fun t => (t.range, "this")
  | _ => []

/-! ## Assembling -/

section

variable (tree : Tree) (scopes : Scopes) (n : Node) (results : Results Construct)

open Assembly

def assignment (v : AssignmentView) : Assembly Construct Construct := do
  let lhs ← need (.lacks "assignment" "target") n.range v.lhs
  let rhs ← need (.lacks "assignment" "value") n.range v.rhs
  let names := match lhs.kind with
    | .ident => [lhs]
    | .array => lhs.children
    | _ => []
  let isNew (c : Node) := c.kind == .ident && scopes.isDeclaration c
  return .assignment
    { lhs := ← part results lhs
      rhs := ← part results rhs
      isExistence := v.isExistence
      declares := (names.filter isNew).map fun c => ⟨tree.nodeText c, !tree.isBlockLocal c⟩
      declaresAll := !names.isEmpty && names.all isNew }

/-- The names that a loop binds, in the order of its output. -/
def loopBindings (v : LoopView) : List LoopBinding :=
  let names (b : Node) := if b.kind = .array then b.children else [b]
  (((v.key.toList ++ v.value.toList).flatMap names).filter fun c => c.kind == .ident).map fun c =>
    ⟨tree.nodeText c, scopes.isDeclaration c, !tree.isBlockLocal c⟩

def loop (v : LoopView) : Assembly Construct Construct := do
  let target ← need (.lacks "loop" "target") n.range v.target
  let body ← need (.lacks "loop" "body") n.range v.body
  if body.range.start < target.range.start then
    stop (.trailing "loop") n.range
  else
    return .loop
      { key := ← part? results v.key
        value := ← part? results v.value
        target := ← part results target
        filter := ← part? results v.filter
        body := ← part results body
        isOf := v.isOf
        bindings := loopBindings tree scopes v }

def param (v : ParamView) : Assembly Construct Param := do
  let name ← need .parameter v.binding.range (tree.nameOf? v.binding)
  return {
    binding := v.binding.range
    name
    isMember := v.binding.kind == .thisMember
    defaultRange := ⟨v.binding.range.stop, v.node.range.stop⟩
    default? := ← part? results v.default? }

def function (v : FunctionView) : Assembly Construct Construct := do
  let arrow ← need (.lacks "function" "arrow") n.range (v.arrow.bind tree.token?)
  let params ← v.params.mapM (param tree results)
  return .function
    { params
      paramList := v.paramList.map (·.range)
      arrow
      body := ← part? results v.body }

def conditional (v : ConditionalView) : Assembly Construct Construct := do
  if v.isTrailing then
    stop (.trailing "conditional") n.range
  else
    let condition ← need (.lacks "conditional" "condition") n.range v.condition
    let consequent ← need (.lacks "conditional" "body") n.range v.consequent
    return .conditional
      { condition := ← part results condition
        consequent := ← part results consequent
        alternate := ← part? results v.alternate }

/-- The construct of a node. -/
def construct : Assembly Construct Construct := do
  let parts (k : Construct) : Assembly Construct Construct := do
    n.children.forM fun c => discard (part results c)
    return k
  match LoopView.ofNode? tree n, ConditionalView.ofNode? tree n, FunctionView.ofNode? tree n,
      AssignmentView.ofNode? n with
  | some v, _, _, _ => loop tree scopes n results v
  | _, some v, _, _ => conditional n results v
  | _, _, some v, _ => function tree n results v
  | _, _, _, some v => assignment tree scopes n results v
  | _, _, _, _ =>
    match n.kind with
    | .block => parts (.block { isScopeBody := Tree.isScopeBody (tree.ancestors n.id).head? })
    | .returnStmt => return .returning (← part? results n.children.head?)
    | _ => parts (.expression (respelled tree n))

end

/-- The patcher of a node; a program is its block. -/
def patcher (tree : Tree) (scopes : Scopes) (n : Node) (results : Results Construct) :
    Except PatchError (Patcher Construct) :=
  match n.kind, results with
  | .program, (_, block) :: _ => block
  | _, _ => Assembly.patcher tree (construct tree scopes) n results

/-- The patchers of a tree. -/
def patchers (tree : Tree) (scopes : Scopes) : Except PatchError (Patcher Construct) :=
  tree.root.fold (patcher tree scopes)

/-! ## Values -/

mutual

/-- The construct can be written as an expression. -/
def isExpression : Patcher Construct → Bool
  | .mk _ _ (.block _) parts => parts.length == 1 && areExpressions parts
  | .mk _ _ (.conditional _) (_ :: branches) => areExpressions branches
  | .mk _ _ (.loop _) _ => false
  | .mk _ _ (.returning _) _ => false
  | _ => true

def areExpressions : List (Patcher Construct) → Bool
  | [] => true
  | p :: ps => isExpression p && areExpressions ps

end

end Respell.Javascript
