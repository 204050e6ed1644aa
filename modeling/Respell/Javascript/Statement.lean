import Respell.Javascript.Body

/-!
Conditionals, loops and assignments, as statements and as values.
-/

namespace Respell.Javascript

/-! ## Conditionals -/

namespace Conditional

def prepare (c : Conditional) (p : Patcher Construct) : Work Unit := do
  if p.site.needsValue then
    (List.range p.parts.length).forM Script.demandValue
  else
    Script.demandValue c.condition.place
    if c.returns then
      (c.consequent :: c.alternate.toList).forM fun b =>
        Script.adjust b.place Construct.returnLast (.done ())

/-- `a ? b : c`. -/
def patchValue (c : Conditional) (p : Patcher Construct) : Work Unit := do
  let condition := c.condition.site.whole
  let consequent := c.consequent.site.whole
  Patching.remove ⟨p.site.content.start, condition.start⟩
  Patching.overwrite ⟨condition.stop, consequent.start⟩ " ? "
  c.alternate.forM fun a => Patching.overwrite ⟨consequent.stop, a.site.whole.start⟩ " : "
  (List.range p.parts.length).forM Script.patch
  if c.alternate.isNone then
    Patching.insert consequent.stop " : undefined"

/-- Opens a brace after `start`, in place of the `then` between the two sites if there is one. -/
def openBrace (start : Nat) (left right : Site) : Patching Unit := do
  match (← get).tree.keywordBetween? left right .thenKw with
  | some t => Patching.overwrite ⟨start, t.range.stop⟩ " \x7b"
  | none => Patching.insert start " \x7b"

/-- `if (a) { … } else { … }`.  A statement has no parentheses of its own. -/
def patchStatement (c : Conditional) (p : Patcher Construct) : Work Unit := do
  let site := p.site
  let consequent := c.consequent.site
  Patching.remove ⟨site.whole.start, site.content.start⟩
  Patching.remove ⟨site.content.stop, site.whole.stop⟩
  Script.patchPart c.condition
  Patching.surroundInParens c.condition.site
  openBrace c.condition.site.whole.stop c.condition.site consequent
  Script.patchPart c.consequent
  let close ← closingBrace site consequent
  match c.alternate with
  | none => Patching.insert consequent.whole.stop close
  | some alternate =>
    match (← get).tree.keywordBetween? consequent alternate.site .elseKw with
    | none => Script.stop (.lost "else" "conditional") site.content
    | some keyword =>
      Patching.overwrite ⟨consequent.whole.stop, keyword.range.stop⟩ (close ++ " else")
      if alternate.site.kind = .ifExpr then
        Script.patchPart alternate
      else
        openBrace keyword.range.stop consequent alternate.site
        Script.patchPart alternate
        let close ← closingBrace site alternate.site
        Patching.insert alternate.site.whole.stop close

end Conditional

/-! ## Loops -/

namespace Loop

/-- Everything in the header is a value. -/
def prepare (l : Loop) : Work Unit :=
  (l.key.toList ++ l.value.toList ++ l.target :: l.filter.toList).forM fun p =>
    Script.demandValue p.place

/-- Every name that the header binds is new and used in the loop only, so the header can declare it. -/
def isLocal (l : Loop) (tree : Tree) (n : Node) : Bool :=
  l.bindings.all fun b =>
    b.isDeclaration && tree.countUsages tree.root b.name == tree.countUsages n b.name

/-- Where the header ends, `then` included. -/
def headerStop (l : Loop) (tree : Tree) : Nat :=
  let last := (l.filter.getD l.target).site
  match tree.keywordBetween? last l.body.site .thenKw with
  | some t => t.range.stop
  | none => last.whole.stop

/-- The target in a form that can be evaluated again and again. -/
def cachedTarget (l : Loop) (site : Site) (code hint : String) : Patching String := do
  match l.target.site.kind with
  | .ident | .thisMember | .this => return code
  | _ =>
    let name ← Patching.claim site.scope hint l.target.site.whole
    Patching.prependLineBefore site ("let " ++ name ++ " = " ++ code ++ ";")
    return name

/-- The first line of the loop, and the line that gets the value. -/
def opening (l : Loop) (site : Site) (declare : String) (key value : Option String) (target : String) :
    Work (String × List String) := do
  let valueLine (object key : String) :=
    value.toList.map fun v => declare ++ v ++ " = " ++ object ++ "[" ++ key ++ "];"
  match l.isOf, key, value with
  | true, some k, _ =>
    let object ← l.cachedTarget site target "object"
    return ("for (" ++ declare ++ k ++ " in " ++ object ++ ") \x7b", valueLine object k)
  | false, some i, _ =>
    let array ← l.cachedTarget site target "array"
    let bound := i ++ " < " ++ array ++ ".length"
    return ("for (" ++ declare ++ i ++ " = 0; " ++ bound ++ "; " ++ i ++ "++) \x7b", valueLine array i)
  | false, none, some v => return ("for (" ++ declare ++ v ++ " of " ++ target ++ ") \x7b", [])
  | _, _, _ => Script.stop (.lacks "loop" "binding") site.content

def filterLine (filter : String) : String := "if (!(" ++ filter ++ ")) \x7b continue; \x7d"

def patchStatement (l : Loop) (p : Patcher Construct) : Work Unit := do
  let site := p.site
  let tree := (← get).tree
  match (site.node.tokens.bind fun r => tree.token? r.1).filter fun t => t.kind == .forKw with
  | none => Script.stop .loopStart site.content
  | some keyword =>
    let header : Span := ⟨keyword.range.start, l.headerStop tree⟩
    let key ← l.key.mapM Script.patchAndRender
    let value ← l.value.mapM Script.patchAndRender
    let target ← Script.patchAndRender l.target
    let filter ← l.filter.mapM Script.patchAndRender
    let isLocal := l.isLocal tree site.node
    if !isLocal then
      (l.bindings.filter (·.isDeclaration)).forM fun b => modify (·.declare b.name b.escapes)
    let (opening, lines) ← l.opening site (if isLocal then "let " else "") key value target
    Patching.overwrite header opening
    Script.patchPart l.body
    prependBodyLines p l.body (lines ++ filter.toList.map filterLine)
    let close ← closingBrace site l.body.site
    Patching.insert site.content.stop close

end Loop

/-! ## Assignments -/

namespace Assignment

def prepare (a : Assignment) : Work Unit := do
  Script.demandValue a.lhs.place
  Script.demandValue a.rhs.place

/-- `let` can go in front of the assignment itself. -/
def declaresInline (a : Assignment) : Bool := a.declaresAll && a.declares.all (!·.escapes)

def declareAll (a : Assignment) : Work Unit :=
  a.declares.forM fun d => modify (·.declare d.name d.escapes)

def patchValue (a : Assignment) (p : Patcher Construct) : Work Unit := do
  a.declareAll
  if a.isExistence then
    let lhs ← Script.patchAndRender a.lhs
    let rhs ← Script.patchAndRender a.rhs
    Patching.overwrite p.site.content
      (lhs ++ " != null ? " ++ lhs ++ " : (" ++ lhs ++ " = " ++ rhs ++ ")")
  else
    Script.patchPart a.lhs
    Script.patchPart a.rhs

def patchStatement (a : Assignment) (p : Patcher Construct) : Work Unit := do
  if a.isExistence then
    a.declareAll
    let lhs ← Script.patchAndRender a.lhs
    let rhs ← Script.patchAndRender a.rhs
    Patching.overwrite p.site.content
      ("if (" ++ lhs ++ " == null) \x7b " ++ lhs ++ " = " ++ rhs ++ "; \x7d")
  else
    Script.patchPart a.lhs
    Script.patchPart a.rhs
    if a.declaresInline then Patching.insert p.site.whole.start "let " else a.declareAll

end Assignment

end Respell.Javascript
