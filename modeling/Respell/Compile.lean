import Respell.Javascript.Emit
import Respell.Normalize
import Respell.Tree.Parse

/-!
Compiling: a program is normalized, and what comes out is parsed again and turned into JavaScript.

    compile .normalize t = normalize t
    compile .main t = normalize t >>= emit
-/

namespace Respell

/-- Why a stage failed. -/
inductive Failure where
  | parse (diagnostics : List Diagnostic)
  | patch (error : PatchError)
deriving Repr

/-- A failure, the stage that failed, and the text it was run on. -/
structure CompileError where
  stage : Stage
  text : String
  failure : Failure
deriving Repr

namespace CompileError

def message (e : CompileError) : String :=
  match e.failure with
  | .parse diagnostics => s!"{e.stage.name} stage: {diagnostics.length} syntax error(s)"
  | .patch error => s!"{e.stage.name} stage: {error.message}"

/-- Diagnostics that point into the text of the stage; a note tells if that is not the input. -/
def diagnostics (e : CompileError) : List Diagnostic :=
  let found := match e.failure with
    | .parse diagnostics => diagnostics
    | .patch error => [error.diagnostic]
  match e.stage with
  | .normalize => found
  | .main => found.map (·.withNote s!"in the {e.stage.name} stage, on normalized source")

end CompileError

/-- The work of a stage on a tree. -/
def Stage.run (stage : Stage) (tree : Tree) : Except PatchError String :=
  let work := match stage with
    | .normalize => Normalize.run tree
    | .main => Javascript.run tree
  (work (Context.ofTree tree stage)).1

/-- Parses a text and runs a stage on it. -/
def Stage.apply (stage : Stage) (text : String) : Except CompileError String :=
  let ⟨tree, errors⟩ := Parse.ofText text.toList
  if errors.isEmpty then
    match stage.run tree with
    | .ok out => .ok out
    | .error e => .error ⟨stage, text, .patch e⟩
  else
    .error ⟨stage, text, .parse errors⟩

/-- Runs the stages up to `last`. -/
def compile (last : Stage) (text : String) : Except CompileError String := do
  let normalized ← Stage.apply .normalize text
  match last with
  | .normalize => return normalized
  | .main => Stage.apply .main normalized

end Respell
