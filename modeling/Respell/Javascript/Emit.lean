import Respell.Javascript.Function
import Respell.Javascript.Statement

/-!
Emitting JavaScript: what each construct does when it is prepared and when it is patched.
-/

namespace Respell.Javascript

def prepare (p : Patcher Construct) : Work Unit :=
  match p.construct with
  | .block b => b.prepare p
  | .conditional c => c.prepare p
  | .loop l => l.prepare
  | .function f => f.prepare p
  | .assignment a => a.prepare
  | .returning value => do
    modify (·.markReturn)
    value.forM fun v => Script.demandValue v.place
  | .expression _ => (List.range p.parts.length).forM Script.demandValue

def finish (p : Patcher Construct) : Work Unit :=
  match p.construct with
  | .function f => f.finish p
  | _ => pure ()

/-- Respells tokens and patches what is below. -/
def patchExpression (respelled : List (Span × String)) (p : Patcher Construct) : Work Unit := do
  respelled.forM fun (range, text) => Patching.overwrite range text
  (List.range p.parts.length).forM Script.patch

/-- A loop and a `return` are never asked for a value: `isExpression` refuses them. -/
def patchValue (p : Patcher Construct) : Work Unit :=
  match p.construct with
  | .block _ => (List.range p.parts.length).forM Script.patch
  | .conditional c => c.patchValue p
  | .function f => f.patchValue p
  | .assignment a => a.patchValue p
  | .expression respelled => patchExpression respelled p
  | .loop _ | .returning _ => .fail (.violation (.notExpression p.site.kind) p.site.content)

def patchStatement (p : Patcher Construct) : Work Unit :=
  match p.construct with
  | .block b => b.patchStatement p
  | .conditional c => c.patchStatement p
  | .loop l => l.patchStatement p
  | .function f => f.patchStatement p
  | .assignment a => a.patchStatement p
  | .returning value => value.forM Script.patchPart
  | .expression respelled => patchExpression respelled p

def hooks : Hooks Context Construct where
  prepare
  finish
  isExpression
  patchValue
  patchStatement

/-- The JavaScript of a normalized tree. -/
def run (tree : Tree) : Patching String := do
  respellComments
  (← liftExcept (patchers tree (← get).scopes)).runAll hooks
  Patching.render

end Respell.Javascript
