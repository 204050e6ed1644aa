import Respell.Patch.Context

/-!
Patchers: the constructs of a tree, each with the phase it has reached.

A patcher is prepared once, before the patchers below it, and then patched once, as a statement or for its
value.  What a construct does in each phase is a `Script`: it can work on the context, call the patchers
below, ask them for a value and adjust what they stand for, and nothing else.  In particular no script
can touch a phase; phases are moved by `Patcher.call` alone.
-/

namespace Respell

/-- How far a patcher has come. -/
inductive Phase where
  | constructed | prepared | patched
deriving DecidableEq, Repr

/-- A construct with its site, its phase and the patchers below it. -/
inductive Patcher (κ : Type) where
  | mk (site : Site) (phase : Phase) (construct : κ) (parts : List (Patcher κ))

namespace Patcher

variable {κ : Type}

def new (site : Site) (construct : κ) (parts : List (Patcher κ)) : Patcher κ :=
  mk site .constructed construct parts

def site : Patcher κ → Site
  | mk s _ _ _ => s

def phase : Patcher κ → Phase
  | mk _ p _ _ => p

def construct : Patcher κ → κ
  | mk _ _ k _ => k

def parts : Patcher κ → List (Patcher κ)
  | mk _ _ _ b => b

def withPhase (phase : Phase) : Patcher κ → Patcher κ
  | mk s _ k b => mk s phase k b

def withConstruct (construct : κ) : Patcher κ → Patcher κ
  | mk s p _ b => mk s p construct b

def withParts (parts : List (Patcher κ)) : Patcher κ → Patcher κ
  | mk s p k _ => mk s p k parts

/-- The same construct in the parentheses of another node. -/
def withOuter (outer : Label) : Patcher κ → Patcher κ
  | mk s p k b => mk { s with outer } p k b

/-- Asks for the value of the construct. -/
def demandValue : Patcher κ → Patcher κ
  | mk s p k b => mk { s with needsValue := true } p k b

def adjust (f : κ → κ) : Patcher κ → Patcher κ
  | mk s p k b => mk s p (f k) b

mutual

/-- How many patchers stand on the longest way down. -/
def height : Patcher κ → Nat
  | mk _ _ _ parts => heights parts + 1

/-- The greatest height. -/
def heights : List (Patcher κ) → Nat
  | [] => 0
  | p :: ps => max p.height (heights ps)

end

/-- The patcher at the end of a path of places below. -/
def follow? (p : Patcher κ) : List Nat → Option (Patcher κ)
  | [] => some p
  | i :: path => do (← p.parts[i]?).follow? path

/-- Changes the patcher at the end of a path. -/
def modifyAt (f : Patcher κ → Patcher κ) : List Nat → Patcher κ → Patcher κ
  | [], p => f p
  | i :: path, p => p.withParts (p.parts.modify i (modifyAt f path))

end Patcher

/-- What can be asked of a patcher. -/
inductive Call where
  | prepare
  /-- Patch for the value if it was asked for, else as a statement. -/
  | patch
  | patchValue
  | patchStatement
deriving DecidableEq, Repr

/-! ## Scripts -/

/-- Steps of a construct's work over a context `γ`, with a result. -/
inductive Script (γ κ α : Type) where
  | done (a : α)
  | fail (e : PatchError)
  /-- Looks at the context. -/
  | read (next : γ → Script γ κ α)
  | write (g : γ) (next : Script γ κ α)
  /-- Looks at the patcher itself and those below. -/
  | self (next : Patcher κ → Script γ κ α)
  /-- Stands for another construct from now on. -/
  | become (k : κ) (next : Script γ κ α)
  /-- Asks for the value of the patcher at a place below. -/
  | demand (place : Nat) (next : Script γ κ α)
  /-- Adjusts the construct at a place below. -/
  | adjust (place : Nat) (f : κ → κ) (next : Script γ κ α)
  /-- Calls the patcher at a place below. -/
  | call (place : Nat) (c : Call) (next : Except PatchError Unit → Script γ κ α)

namespace Script

variable {γ κ α β : Type}

def bind : Script γ κ α → (α → Script γ κ β) → Script γ κ β
  | done a, f => f a
  | fail e, _ => fail e
  | read next, f => read fun g => (next g).bind f
  | write g next, f => write g (next.bind f)
  | self next, f => self fun p => (next p).bind f
  | become k next, f => become k (next.bind f)
  | demand i next, f => demand i (next.bind f)
  | adjust i g next, f => adjust i g (next.bind f)
  | call i c next, f => call i c fun r => (next r).bind f

instance : Monad (Script γ κ) where
  pure := done
  bind := bind

def ofExcept : Except PatchError α → Script γ κ α
  | .ok a => done a
  | .error e => fail e

/-- A step on the context. -/
def lift (m : γ → Except PatchError α × γ) : Script γ κ α :=
  read fun g => write (m g).2 (ofExcept (m g).1)

instance : MonadLift Patching (Script Context κ) := ⟨fun m => lift m⟩

/-- Calls the patcher at a place below; its failure is the script's. -/
def callPart (place : Nat) (c : Call) : Script γ κ Unit := call place c ofExcept

def patch (place : Nat) : Script γ κ Unit := callPart place .patch

def demandValue (place : Nat) : Script γ κ Unit := demand place (done ())

def getSelf : Script γ κ (Patcher κ) := self done

end Script

/-- How a script or a call ends: its result, and the patcher and the context as they are then. -/
structure Outcome (γ κ α : Type) where
  result : Except PatchError α
  patcher : Patcher κ
  context : γ

namespace Script

variable {γ κ α : Type}

/-- Runs a script on a patcher, given how patchers below are called.  A place with no patcher is passed
over. -/
def run (callee : Call → Patcher κ → γ → Outcome γ κ Unit) :
    Script γ κ α → Patcher κ → γ → Outcome γ κ α
  | done a, p, g => ⟨.ok a, p, g⟩
  | fail e, p, g => ⟨.error e, p, g⟩
  | read next, p, g => (next g).run callee p g
  | write g next, p, _ => next.run callee p g
  | self next, p, g => (next p).run callee p g
  | become k next, p, g => next.run callee (p.withConstruct k) g
  | demand i next, p, g => next.run callee (p.withParts (p.parts.modify i Patcher.demandValue)) g
  | adjust i f next, p, g => next.run callee (p.withParts (p.parts.modify i (Patcher.adjust f))) g
  | call i c next, p, g =>
    match p.parts[i]? with
    | none => (next (.ok ())).run callee p g
    | some child =>
      let o := callee c child g
      (next o.result).run callee (p.withParts (p.parts.set i o.patcher)) o.context

end Script

/-! ## The contract -/

/-- A set of constructs: what each does when it is prepared, after those below are prepared, and when
it is patched; and whether it can stand for a value. -/
structure Hooks (γ κ : Type) where
  prepare : Patcher κ → Script γ κ Unit
  finish : Patcher κ → Script γ κ Unit
  isExpression : Patcher κ → Bool
  patchValue : Patcher κ → Script γ κ Unit
  patchStatement : Patcher κ → Script γ κ Unit

namespace Patcher

variable {γ κ : Type}

/-- The work of preparing a patcher. -/
def prepareScript (h : Hooks γ κ) (p : Patcher κ) : Script γ κ Unit := do
  h.prepare p
  (List.range p.parts.length).forM fun i => Script.callPart i .prepare
  h.finish (← Script.getSelf)

/-- A call out of turn. -/
def violate (p : Patcher κ) (g : γ) (cause : Kind → Violation) : Outcome γ κ Unit :=
  ⟨.error (.violation (cause p.site.kind) p.site.content), p, g⟩

/-- Moves the patcher of an outcome to a phase if all went well. -/
def advance (phase : Phase) (o : Outcome γ κ Unit) : Outcome γ κ Unit :=
  match o.result with
  | .ok () => { o with patcher := o.patcher.withPhase phase }
  | .error _ => o

/-- Answers a call, with calls nested at most `depth` deep.  A call out of turn does nothing. -/
def callWithin (h : Hooks γ κ) : (depth : Nat) → Call → Patcher κ → γ → Outcome γ κ Unit
  | 0, _, p, g => ⟨.ok (), p, g⟩
  | depth + 1, c, p, g =>
    let run (script : Script γ κ Unit) (next : Phase) : Outcome γ κ Unit :=
      advance next (script.run (callWithin h depth) p g)
    let patchAs (isValue : Bool) : Outcome γ κ Unit :=
      match p.phase with
      | .constructed => p.violate g .patchedUnprepared
      | .patched => p.violate g .patchedTwice
      | .prepared =>
        if isValue then
          if h.isExpression p then run (h.patchValue p) .patched
          else p.violate g .notExpression
        else
          run (h.patchStatement p) .patched
    match c with
    | .prepare =>
      if p.phase = .constructed then run (prepareScript h p) .prepared
      else p.violate g .preparedTwice
    | .patch => patchAs p.site.needsValue
    | .patchValue => patchAs true
    | .patchStatement => patchAs false

/-- Answers a call.  Calls go down only, so none is nested deeper than the patcher is high. -/
def call (h : Hooks γ κ) (c : Call) (p : Patcher κ) (g : γ) : Outcome γ κ Unit :=
  callWithin h p.height c p g

/-- Answers a call on the patcher at the end of a path; none if there is no such patcher. -/
def callAt? (h : Hooks γ κ) (c : Call) (path : List Nat) (p : Patcher κ) (g : γ) :
    Option (Outcome γ κ Unit) :=
  (p.follow? path).map fun q =>
    let o := q.call h c g
    { o with patcher := p.modifyAt (fun _ => o.patcher) path }

/-- Patches the patcher at the end of a path and gives its text, with what was put in at its start. -/
def patchAndRenderAt? (h : Hooks γ κ) (context : γ → Context) (path : List Nat) (p : Patcher κ) (g : γ) :
    Option (Outcome γ κ String) := do
  let q ← p.follow? path
  let o ← p.callAt? h .patch path g
  let text := match o.result with
    | .ok () => ((context o.context).editor.renderRangeInclusive q.site.whole).mapError .edit
    | .error e => .error e
  return ⟨text, o.patcher, o.context⟩

/-- An obstacle in the way of this patcher. -/
def obstacle (p : Patcher κ) (cause : Obstacle) : PatchError := .obstacle cause p.site.content

end Patcher

end Respell
