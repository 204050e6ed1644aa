import Respell.Diagnostic
import Respell.Editor
import Respell.Kind

/-!
Why a patcher stops.
-/

namespace Respell

/-- How the contract between patchers was broken. -/
inductive Violation where
  | preparedTwice (kind : Kind)
  | patchedUnprepared (kind : Kind)
  | patchedTwice (kind : Kind)
  /-- A value is asked of what has none. -/
  | notExpression (kind : Kind)
  /-- A function without braces has a `return` in it. -/
  | conciseReturn
deriving DecidableEq, Repr

def Violation.message : Violation → String
  | preparedTwice kind => s!"{kind.describe} initialized twice"
  | patchedUnprepared kind => s!"{kind.describe} patched before initialization"
  | patchedTwice kind => s!"{kind.describe} patched twice"
  | notExpression kind => s!"{kind.describe} cannot be used as an expression"
  | conciseReturn => "concise arrow function cannot return explicitly"

/-- What keeps a construct from being respelled. -/
inductive Obstacle where
  /-- A part is missing. -/
  | lacks (what part : String)
  /-- A keyword is not where it belongs. -/
  | lost (keyword what : String)
  /-- A loop does not start with its keyword. -/
  | loopStart
  /-- The header still follows the body. -/
  | trailing (what : String)
  /-- A parameter binds no name. -/
  | parameter
  /-- Lines have to go in front of the first statement, and there is none. -/
  | emptyBody
  | other (message : String)
deriving DecidableEq, Repr

def Obstacle.message : Obstacle → String
  | lacks what part => s!"{what} has no {part}"
  | lost keyword what => s!"cannot find '{keyword}' token in {what}"
  | loopStart => "expected 'for' at start of loop"
  | trailing what => s!"postfix {what} was not normalized"
  | parameter => "unsupported parameter"
  | emptyBody => "expected a block with statements"
  | other message => message

inductive PatchError where
  | violation (cause : Violation) (range : Span)
  | obstacle (cause : Obstacle) (range : Span)
  | edit (cause : EditError)
  /-- No name is free for what the hint describes. -/
  | binding (hint : String) (range : Span)
deriving DecidableEq, Repr

namespace PatchError

def message : PatchError → String
  | violation cause _ => cause.message
  | obstacle cause _ => cause.message
  | edit cause => cause.message
  | binding hint _ => s!"cannot find a free binding for '{hint}'"

def range : PatchError → Span
  | violation _ range | obstacle _ range | binding _ range => range
  | edit cause => cause.range

/-- What is written under the place that an error points at. -/
def label : PatchError → String
  | violation .. => "not supported in this position"
  | obstacle .. => "cannot be rewritten"
  | edit .. => "conflicting rewrite"
  | binding .. => "needs a temporary name"

def diagnostic (e : PatchError) : Diagnostic := { message := e.message, range := e.range, label := e.label }

end PatchError

end Respell
