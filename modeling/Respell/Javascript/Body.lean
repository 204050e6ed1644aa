import Respell.Javascript.Construct

/-!
Bodies: sequences of statements between braces.

A brace closes on the line of the construct that opened it.  Comments behind an indented body that belong to
it, on its last line or on deeper lines below, move inside the brace.
-/

namespace Respell.Javascript

abbrev Work := Script Context Construct

/-! ## Comments -/

/-- Respells the delimiters of every comment.  This comes first, so that edits of larger ranges win. -/
def respellComments : Patching Unit := do
  let tree := (← get).tree
  tree.comments.forM fun c =>
    (c.delimiters tree.text).forM fun (range, text) => Patching.overwrite range text

/-- A blank or a line break. -/
def isSpace (c : Char) : Bool := Text.isBlank c || Text.isLineBreak c

/-- Comments taken along: their JavaScript, with the space before each, and where the last one ended. -/
structure Taken where
  text : String := ""
  stop : Option Nat := none

/-- Takes the comments that follow `cursor` with nothing but space between them, each on the same line or
on a line indented deeper than `indent`.  A comment that was taken before is passed over. -/
def takeComments (indent : Nat) : (cursor : Nat) → Taken → List Comment → Patching Taken
  | _, taken, [] => return taken
  | cursor, taken, c :: cs => do
    let cx ← get
    let gap := cx.slice ⟨cursor, c.range.start⟩
    let isDeeper := (cx.lineIndent? c.range.start).any fun blanks => indent < blanks.length
    if gap.toList.all isSpace && (!gap.toList.contains '\n' || isDeeper) then
      let (isNew, cx) := cx.moveComment c.range.start
      set cx
      let taken :=
        if isNew then ⟨taken.text ++ gap ++ c.javascript cx.tree.text, some c.range.stop⟩ else taken
      takeComments indent c.range.stop taken cs
    else
      return taken

/-- Takes the comments after `stop` out of the text. -/
def takeTrailingComments (stop indent : Nat) : Patching String := do
  let comments := (← get).tree.comments.filter fun c => stop ≤ c.range.start
  let taken ← takeComments indent stop {} comments
  taken.stop.forM fun last => Patching.remove ⟨stop, last⟩
  return taken.text

/-! ## Braces -/

/-- The construct starts on a line of its own that is indented deeper. -/
def isIndented (tree : Tree) (s : Site) : Bool :=
  match s.node.tokens with
  | some (first + 1, _) => tree.kindAt first == .indent
  | _ => false

/-- The brace that closes a body of `owner`, with the comments that move in front of it. -/
def closingBrace (owner body : Site) : Patching String := do
  let cx ← get
  if isIndented cx.tree body then
    let indent := cx.indentOfLine owner.content.start
    let moved ← takeTrailingComments body.whole.stop indent.length
    return moved ++ "\n" ++ indent ++ "\x7d"
  else
    return " \x7d"

/-- Puts lines, in order, in front of the first statement of a body and of all that was put in there. -/
def prependBodyLines (p : Patcher Construct) (body : Part) (lines : List String) : Work Unit := do
  if lines.isEmpty then return
  let block := p.parts[body.place]?
  let first := block.bind fun b =>
    match b.construct with
    | .block _ => b.parts.head?
    | _ => none
  match first with
  | some s => lines.reverse.forM fun line => Patching.prependLineBefore s.site line
  | none => Script.stop .emptyBody body.site.content

/-! ## Blocks -/

/-- Lets a construct return its last statement, if it has any. -/
def Construct.returnLast : Construct → Construct
  | .block b => .block { b with returns := true }
  | .conditional c => .conditional { c with returns := true }
  | k => k

/-- A conditional in parentheses on its own reads as a value. -/
def isParenthesizedValue (p : Patcher Construct) : Bool :=
  p.site.isParenthesized && p.site.kind == .ifExpr && isExpression p

namespace Block

/-- Prepares the last statement to be returned; tells whether `return` has to go in front of it. -/
def prepareReturn (p : Patcher Construct) : Work Bool := do
  let place := p.parts.length - 1
  let demand : Work Bool := do
    Script.demandValue place
    return true
  match p.parts.getLast? with
  | none => return false
  | some last =>
    match last.construct with
    | .returning _ | .loop _ => return false
    | .conditional _ =>
      if last.site.needsValue || isParenthesizedValue last then demand
      else .adjust place Construct.returnLast (.done false)
    | _ => demand

def prepare (b : Block) (p : Patcher Construct) : Work Unit := do
  if p.site.needsValue then
    (List.range p.parts.length).forM Script.demandValue
  else
    p.parts.zipIdx.forM fun (s, place) => do
      if isParenthesizedValue s then Script.demandValue place
    let returnsLast ← if b.returns then prepareReturn p else pure false
    .become (.block { b with returnsLast }) (.done ())

/-- Statements that end in a brace and take no semicolon. -/
def endsInBrace (s : Site) : Bool :=
  !s.needsValue && (s.kind == .ifExpr || s.kind == .forExpr || s.kind == .existsAssign)

/-- A semicolon is missing after the statement. -/
def needsSemicolon (tree : Tree) (s : Site) : Bool :=
  !endsInBrace s && !(s.outer.tokens.any fun (_, last) => tree.kindAt (last + 1) == .semicolon)

def patchOne (b : Block) (s : Site) (place : Nat) (isLast : Bool) : Work Unit := do
  modify (·.beginDeclarations b.isScopeBody)
  Script.patch place
  let names ← modifyGet (·.endDeclarations)
  if b.returnsLast && isLast then
    Patching.prepend s.whole.start "return "
  if needsSemicolon (← get).tree s then
    Patching.insert s.whole.stop ";"
  if !names.isEmpty then
    Patching.prependLineBefore s ("let " ++ ", ".intercalate names ++ ";")

def patchStatement (b : Block) (p : Patcher Construct) : Work Unit :=
  p.parts.zipIdx.forM fun (s, place) => b.patchOne s.site place (place + 1 == p.parts.length)

end Block

end Respell.Javascript
