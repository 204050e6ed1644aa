import Respell.Patch.Assembly

/-!
Normalizing: every loop and conditional gets its header in front of its body.

    body for x in xs when c        for x in xs when c then body
    body if c                      if c then body

The header moves as text, so a target, filter or condition that holds a clause keyword is put into
parentheses first.  A loop value that is more than names and arrays of names is replaced by a fresh name,
and the body starts by assigning it to the pattern.  All else stays as it is.
-/

namespace Respell.Normalize

/-- A loop and its parts. -/
structure Loop where
  key : Option Part
  value : Option Part
  target : Part
  filter : Option Part
  body : Part

inductive Construct where
  | loop (l : Loop)
  /-- A conditional whose keyword follows its body. -/
  | trailingConditional (condition body : Part)
  /-- What is left as it is. -/
  | plain

/-! ## Assembling -/

def construct (tree : Tree) (n : Node) (results : Results Construct) : Assembly Construct Construct := do
  let lacks (part : String) := Obstacle.lacks n.kind.describe part
  match LoopView.ofNode? tree n, (ConditionalView.ofNode? tree n).filter (·.isTrailing) with
  | some v, _ =>
    let target ← Assembly.need (lacks "target") n.range v.target
    let body ← Assembly.need (lacks "body") n.range v.body
    return .loop
      { key := ← Assembly.part? results v.key
        value := ← Assembly.part? results v.value
        target := ← Assembly.part results target
        filter := ← Assembly.part? results v.filter
        body := ← Assembly.part results body }
  | none, some v =>
    let condition ← Assembly.need (lacks "condition") n.range v.condition
    let body ← Assembly.need (lacks "body") n.range v.consequent
    let condition ← Assembly.part results condition
    let body ← Assembly.part results body
    return .trailingConditional condition body
  | none, none =>
    n.children.forM fun c => discard (Assembly.part results c)
    return .plain

/-- The patchers of a tree. -/
def patchers (tree : Tree) : Except PatchError (Patcher Construct) :=
  tree.root.fold (Assembly.patcher tree (construct tree))

/-! ## Patching -/

abbrev Work := Script Context Construct

/-- Every node among the elements is a name or an array of such. -/
def bindsDirectly : Forest Label → Bool
  | .nil => true
  | .token _ rest => bindsDirectly rest
  | .node l inside rest =>
    (l.kind == .ident || (l.kind == .array && bindsDirectly inside)) && bindsDirectly rest

/-- Patches the value of a loop.  A pattern is replaced by a fresh name; the line given back assigns that
name to it. -/
def patchLoopValue (scope : Nat) (value : Part) : Work (Option String) := do
  if bindsDirectly value.site.node.toForest then
    Script.patchPart value
    return none
  else
    let name ← Patching.claim scope "value" value.site.whole
    let code ← Script.patchAndRender value
    Patching.overwrite value.site.content name
    return some (code ++ " = " ++ name)

/-- Puts parentheses around a part that could not be followed by `then`. -/
def protect (p : Part) : Work Unit := do
  let cx ← get
  if requiresParens (cx.slice p.site.content).toList then Patching.surroundInParens p.site

/-- Moves the header, which goes from `start` to the end of the construct, in front of the body. -/
def moveHeader (site : Site) (start : Nat) (body : Part) : Work Unit := do
  let header ← Patching.renderRange ⟨start, site.content.stop⟩
  Patching.remove ⟨body.site.whole.stop, site.content.stop⟩
  Patching.insert body.site.whole.start (header ++ " then ")

namespace Loop

/-- The body stands before the header. -/
def isTrailing (l : Loop) : Bool := l.body.site.content.start < l.target.site.content.start

/-- The part of the header that comes first. -/
def firstOfHeader (l : Loop) : Part :=
  (l.key.toList ++ l.value.toList).foldr
    (fun p best => if p.site.content.start ≤ best.site.content.start then p else best) l.target

/-- The keyword of the loop. -/
def keyword (l : Loop) (site : Site) : Work Token := do
  let tree := (← get).tree
  if l.isTrailing then
    match tree.keywordBetween? l.body.site l.firstOfHeader.site .forKw with
    | some t => return t
    | none => Script.stop (.lost "for" "loop") site.content
  else
    match (site.node.tokens.bind fun r => tree.token? r.1).filter fun t => t.kind == .forKw with
    | some t => return t
    | none => Script.stop .loopStart site.content

def patch (l : Loop) (site : Site) : Work Unit := do
  l.key.forM Script.patchPart
  let line ← match l.value with
    | some value => patchLoopValue site.scope value
    | none => pure none
  Script.patchPart l.target
  l.filter.forM Script.patchPart
  let keyword ← l.keyword site
  if l.isTrailing then
    protect l.target
    l.filter.forM protect
    moveHeader site keyword.range.start l.body
    line.forM fun line => do
      Patching.insert l.body.site.whole.start (line ++ (← get).stage.separator)
  else
    line.forM fun line => Patching.insertLineBefore l.body.site line
  Script.patchPart l.body

end Loop

def patchConditional (site : Site) (condition body : Part) : Work Unit := do
  Script.patchPart condition
  protect condition
  match (← get).tree.keywordBetween? body.site condition.site .ifKw with
  | some t => moveHeader site t.range.start body
  | none => Script.stop (.lost "if" "conditional") site.content
  Script.patchPart body

/-- The work is the same for a statement and for a value. -/
def patch (p : Patcher Construct) : Work Unit :=
  match p.construct with
  | .loop l => l.patch p.site
  | .trailingConditional condition body => patchConditional p.site condition body
  | .plain => (List.range p.parts.length).forM Script.patch

def hooks : Hooks Context Construct where
  prepare _ := pure ()
  finish _ := pure ()
  isExpression _ := true
  patchValue := patch
  patchStatement := patch

/-- The normalized text of a tree. -/
def run (tree : Tree) : Patching String := do
  (← liftExcept (patchers tree)).runAll hooks
  Patching.render

end Respell.Normalize
