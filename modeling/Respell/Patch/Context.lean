import Respell.Patch.Error
import Respell.Patch.Site

/-!
The context of a stage: the tree, the edits made so far, the scopes, and what is known of the
functions and statements around the construct at work.

`Patching` is the monad of steps on a context.  A step that fails leaves the context as far as it came.
-/

namespace Respell

/-- The two halves of the work. -/
inductive Stage where
  /-- Trailing loops and conditionals get their header in front; the language stays the same. -/
  | normalize
  /-- The normalized program becomes JavaScript. -/
  | main
deriving DecidableEq, Repr

namespace Stage

def name : Stage → String
  | normalize => "normalize"
  | main => "main"

/-- What divides a statement from one put in front of it on the same line. -/
def separator : Stage → String
  | normalize => "; "
  | main => " "

end Stage

/-- Names to declare in front of one statement. -/
structure DeclarationFrame where
  names : List String := []
  /-- The statement stands directly in the body of a program or a function. -/
  isScopeBody : Bool
deriving DecidableEq, Repr

structure Context where
  tree : Tree
  stage : Stage
  editor : Editor
  scopes : Scopes
  /-- For each function around, the innermost first: a `return` was seen in it. -/
  functions : List Bool := []
  /-- For each statement around, the innermost first. -/
  declarations : List DeclarationFrame := []
  /-- Where the comments start that were moved. -/
  moved : List Nat := []

abbrev Patching := ExceptT PatchError (StateM Context)

namespace Context

def ofTree (tree : Tree) (stage : Stage) : Context :=
  { tree, stage, editor := .ofText tree.text, scopes := .ofTree tree }

/-! ## The source -/

/-- The unedited text of a range. -/
def slice (cx : Context) (range : Span) : String := Text.slice cx.tree.text range

def lineIndent? (cx : Context) (offset : Nat) : Option String := Text.lineIndent? cx.tree.text offset

def indentOfLine (cx : Context) (offset : Nat) : String := Text.indentOfLine cx.tree.text offset

/-- A line in front of what stands at `offset`: on a line of its own with the same indentation, or, if
other code stands before it, on the same line. -/
def lineText (cx : Context) (offset : Nat) (line : String) : String :=
  match cx.lineIndent? offset with
  | some indent => line ++ "\n" ++ indent
  | none => line ++ cx.stage.separator

/-! ## Functions, declarations, comments -/

def enterFunction (cx : Context) : Context := { cx with functions := false :: cx.functions }

/-- A `return` stands in the innermost function. -/
def markReturn (cx : Context) : Context := { cx with functions := cx.functions.modifyHead fun _ => true }

/-- Leaves the innermost function; tells whether a `return` was seen in it. -/
def exitFunction (cx : Context) : Bool × Context :=
  (cx.functions.headD false, { cx with functions := cx.functions.tail })

def beginDeclarations (cx : Context) (isScopeBody : Bool) : Context :=
  { cx with declarations := { isScopeBody } :: cx.declarations }

/-- Adds a name to the first frame that satisfies `p`, unless it is there; none if no frame does. -/
def addName? (name : String) (p : DeclarationFrame → Bool) :
    List DeclarationFrame → Option (List DeclarationFrame)
  | [] => none
  | f :: fs =>
    if p f then
      some ((if f.names.contains name then f else { f with names := f.names ++ [name] }) :: fs)
    else
      (addName? name p fs).map (f :: ·)

/-- A name has to be declared: in front of the statement at work or, if `hoist`, of the statement
around it that stands in the body of a program or function. -/
def declare (cx : Context) (name : String) (hoist : Bool) : Context :=
  let hoisted := if hoist then addName? name (·.isScopeBody) cx.declarations else none
  let nearest := addName? name (fun _ => true) cx.declarations
  { cx with declarations := (hoisted <|> nearest).getD cx.declarations }

/-- Ends a statement; gives the names to declare in front of it. -/
def endDeclarations (cx : Context) : List String × Context :=
  ((cx.declarations.head?.map (·.names)).getD [], { cx with declarations := cx.declarations.tail })

/-- Takes the comment that starts at `start` to another place; false if it was taken before. -/
def moveComment (cx : Context) (start : Nat) : Bool × Context :=
  if cx.moved.contains start then (false, cx) else (true, { cx with moved := start :: cx.moved })

end Context

namespace Patching

/-! ## Edits -/

def edit (f : Editor → Except EditError Editor) : Patching Unit := do
  let cx ← get
  match f cx.editor with
  | .ok editor => set { cx with editor }
  | .error e => throw (.edit e)

def insert (offset : Nat) (text : String) : Patching Unit := edit (·.insert offset text)

def prepend (offset : Nat) (text : String) : Patching Unit := edit (·.prepend offset text)

def overwrite (range : Span) (text : String) : Patching Unit := edit (·.overwrite range text)

def remove (range : Span) : Patching Unit := edit (·.remove range)

def rendered (f : Editor → Except EditError String) : Patching String := do
  match f (← get).editor with
  | .ok text => return text
  | .error e => throw (.edit e)

def render : Patching String := rendered (·.render)

def renderRange (range : Span) : Patching String := rendered (·.renderRange range)

def renderRangeInclusive (range : Span) : Patching String := rendered (·.renderRangeInclusive range)

/-- Takes a free name for a temporary of the construct at `range`. -/
def claim (scope : Nat) (hint : String) (range : Span) : Patching String := do
  let cx ← get
  match cx.scopes.claim? scope hint with
  | some (name, scopes) =>
    set { cx with scopes }
    return name
  | none => throw (.binding hint range)

/-! ## Edits at a site -/

/-- Puts a statement right before this one. -/
def insertLineBefore (s : Site) (line : String) : Patching Unit := do
  insert s.whole.start ((← get).lineText s.whole.start line)

/-- Puts a statement right before this one and all that was put in there. -/
def prependLineBefore (s : Site) (line : String) : Patching Unit := do
  prepend s.whole.start ((← get).lineText s.whole.start line)

/-- Puts parentheses around a construct that has none. -/
def surroundInParens (s : Site) : Patching Unit := do
  if s.isParenthesized then return
  prepend s.whole.start "("
  insert s.whole.stop ")"

end Patching

end Respell
