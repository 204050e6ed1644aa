import Respell.Javascript.Body

/-!
Functions.

A function keeps the form of its arrow: `->` becomes `function`, `=>` stays an arrow.  Default values and
members among the parameters become lines at the top of the body.  An arrow over a single expression on
the same line stays without braces.
-/

namespace Respell.Javascript.Function

def isBound (f : Function) : Bool := f.arrow.kind == .fatArrow

/-- Some parameter needs a line in the body. -/
def hasParamLines (f : Function) : Bool := f.params.any fun p => p.isMember || p.default?.isSome

/-- The function can be written without braces. -/
def canBeConcise (f : Function) (tree : Tree) (p : Patcher Construct) : Bool :=
  match f.body with
  | none => false
  | some body =>
    f.isBound && !f.hasParamLines && !isIndented tree body.site &&
      (p.parts[body.place]?).any isExpression

def prepare (f : Function) (p : Patcher Construct) : Work Unit := do
  modify (·.enterFunction)
  (f.params.filterMap (·.default?)).forM fun d => Script.demandValue d.place
  let isConcise := f.canBeConcise (← get).tree p
  Script.become (.function { f with isConcise }) (.done ())
  f.body.forM fun body =>
    if isConcise then Script.demandValue body.place
    else Script.adjust body.place Construct.returnLast (.done ())

def finish (f : Function) (p : Patcher Construct) : Work Unit := do
  let hasReturn ← modifyGet (·.exitFunction)
  if hasReturn && f.isConcise then .fail (.violation .conciseReturn p.site.content)

/-! ## Parameters -/

/-- Lines at the top of the body, those of default values and those of members. -/
structure Lines where
  defaults : List String := []
  members : List String := []

/-- Renames a member and takes its default value out; adds the lines for both. -/
def patchParam (scope : Nat) (lines : Lines) (q : Param) : Work Lines := do
  let (name, members) ←
    if q.isMember then do
      let name ← Patching.claim scope q.name q.binding
      Patching.overwrite q.binding name
      pure (name, ["this." ++ q.name ++ " = " ++ name ++ ";"])
    else
      pure (q.name, [])
  let defaults ← match q.default? with
    | some d => do
      let value ← Script.patchAndRender d
      Patching.remove q.defaultRange
      pure ["if (" ++ name ++ " == null) \x7b " ++ name ++ " = " ++ value ++ "; \x7d"]
    | none => pure []
  return ⟨lines.defaults ++ defaults, lines.members ++ members⟩

/-- Patches the parameters.  Their names belong to the function's own scope. -/
def patchParams (f : Function) (site : Site) : Work (List String) := do
  let scopes := (← get).scopes
  let scope := ((scopes.scope? site.node.id).map (·.owner)).getD site.scope
  let lines ← f.params.foldlM (patchParam scope) {}
  return lines.defaults ++ lines.members

/-! ## Bodies -/

/-- What stands in place of the arrow. -/
def opening (f : Function) : String :=
  match f.isBound, f.paramList.isSome with
  | false, true => "\x7b"
  | false, false => "function() \x7b"
  | true, true => "=> \x7b"
  | true, false => "() => \x7b"

def patchConcise (f : Function) : Work Unit := do
  if f.paramList.isNone then Patching.overwrite f.arrow.range "() =>"
  f.body.forM Script.patchPart

def patchBraced (f : Function) (p : Patcher Construct) : Work Unit := do
  if !f.isBound then f.paramList.forM fun params => Patching.insert params.start "function"
  let lines ← f.patchParams p.site
  match f.body with
  | none =>
    let inside := if lines.isEmpty then "" else " " ++ " ".intercalate lines ++ " "
    Patching.overwrite f.arrow.range (f.opening ++ inside ++ "\x7d")
  | some body =>
    Patching.overwrite f.arrow.range f.opening
    Script.patchPart body
    prependBodyLines p body lines
    let close ← closingBrace p.site body.site
    Patching.insert p.site.content.stop close

def patchValue (f : Function) (p : Patcher Construct) : Work Unit :=
  if f.isConcise then f.patchConcise else f.patchBraced p

/-- A statement cannot start with `function`, so it gets parentheses. -/
def patchStatement (f : Function) (p : Patcher Construct) : Work Unit := do
  f.patchValue p
  if !f.isBound then Patching.surroundInParens p.site

end Respell.Javascript.Function
