import Respell.Text

/-!
Edits of a text, recorded by offsets in the unedited text.

An insert belongs to the character before its offset.  A replacement of `[s, e)` takes with it the
inserts at `s < o ≤ e` that came before; those at `s` stay in front of it.  Two replacements are
disjoint, or the later one holds the earlier, which then counts no more.  So the inserts that are left
and the replacements that count never cross, and rendering is one pass from left to right:

    source [0, a)  inserts at a  replacement of [a, b)  source [b, c)  inserts at c  …
-/

namespace Respell

inductive EditError where
  /-- An edit of `new` and one of `existing` cross. -/
  | overlapping (existing new : Span)
  /-- An end of the range is past the text or inside a character. -/
  | render (range : Span)
deriving DecidableEq, Repr

namespace EditError

def range : EditError → Span
  | overlapping _ new => new
  | render range => range

def message : EditError → String
  | overlapping existing new => s!"edit at {new.text} overlaps an edit at {existing.text} without nesting"
  | render range => s!"edit at {range.text} is out of bounds or not on a character boundary"

end EditError

/-- Text put in at an offset. -/
structure Insert where
  offset : Nat
  text : String
  /-- Inserts at one offset stand in this order: those put in front have negative numbers, so that the
  latest comes first. -/
  order : Int
  /-- A later replacement took it. -/
  isSubsumed : Bool := false
deriving DecidableEq, Repr

/-- Text put in place of a range. -/
structure Replacement where
  range : Span
  text : String
  /-- No later replacement holds it. -/
  isActive : Bool := true
deriving DecidableEq, Repr

/-- A text and the edits of it, in the order in which they were made. -/
structure Editor where
  source : List Char
  inserts : List Insert := []
  replacements : List Replacement := []
  /-- How many edits were made. -/
  count : Nat := 0
deriving DecidableEq, Repr

namespace Editor

def ofText (source : List Char) : Editor := { source }

def active (e : Editor) : List Replacement := e.replacements.filter (·.isActive)

def live (e : Editor) : List Insert := e.inserts.filter (!·.isSubsumed)

/-! ## Edits -/

/-- Records an insert; refused strictly inside a replacement. -/
def place (e : Editor) (offset : Nat) (text : String) (order : Int) : Except EditError Editor :=
  match e.active.find? (·.range.strictlyContains offset) with
  | some r => .error (.overlapping r.range (.empty offset))
  | none =>
    .ok { e with inserts := e.inserts ++ [{ offset, text, order }], count := e.count + 1 }

/-- Puts text after all that was put in at the offset. -/
def insert (e : Editor) (offset : Nat) (text : String) : Except EditError Editor :=
  e.place offset text (e.count + 1 : Nat)

/-- Puts text before all that was put in at the offset. -/
def prepend (e : Editor) (offset : Nat) (text : String) : Except EditError Editor :=
  e.place offset text (-((e.count + 1 : Nat) : Int))

/-- The two ranges share text and the new one does not hold the other. -/
def crosses (new existing : Span) : Bool := existing.overlaps new && !new.contains existing

/-- Puts text in place of a range; refused if it crosses a replacement.  An empty range is an insert. -/
def overwrite (e : Editor) (range : Span) (text : String) : Except EditError Editor :=
  if range.isEmpty then e.insert range.start text
  else
    match e.active.find? fun r => crosses range r.range with
    | some r => .error (.overlapping r.range range)
    | none =>
      let retire (r : Replacement) : Replacement :=
        if range.contains r.range then { r with isActive := false } else r
      let subsume (i : Insert) : Insert :=
        if range.start < i.offset ∧ i.offset ≤ range.stop then { i with isSubsumed := true } else i
      .ok
        { e with
          inserts := e.inserts.map subsume
          replacements := e.replacements.map retire ++ [{ range, text }]
          count := e.count + 1 }

/-- Takes a range out; an empty one is no edit. -/
def remove (e : Editor) (range : Span) : Except EditError Editor :=
  if range.isEmpty then .ok e else e.overwrite range ""

/-! ## Rendering -/

/-- The unedited text of a range. -/
def slice (e : Editor) (range : Span) : Except EditError (List Char) :=
  match Text.slice? e.source range with
  | some text => .ok text
  | none => .error (.render range)

/-- Both ends of the range are boundaries of the text. -/
def checkBounds (e : Editor) (range : Span) : Except EditError Unit :=
  if Text.isBoundary e.source range.start && Text.isBoundary e.source range.stop then .ok ()
  else .error (.render range)

/-- Text that stands in place of a range, which is empty for an insert. -/
structure Splice where
  range : Span
  text : String
  order : Int
deriving DecidableEq, Repr

/-- `a` is written before `b`: it starts earlier, or it is the earlier of two inserts, or it is an
insert in front of a replacement. -/
def Splice.precedes (a b : Splice) : Bool :=
  if a.range.start == b.range.start then
    a.range.isEmpty && (!b.range.isEmpty || a.order ≤ b.order)
  else
    a.range.start < b.range.start

/-- Puts a splice into a sequence, in front of the first one that it precedes. -/
def Splice.insert (s : Splice) : List Splice → List Splice
  | [] => [s]
  | t :: ts => if s.precedes t then s :: t :: ts else t :: Splice.insert s ts

/-- The splices in the order in which they are written. -/
def Splice.sort : List Splice → List Splice
  | [] => []
  | s :: ss => Splice.insert s (Splice.sort ss)

/-- The splices in a range; the inserts at its start belong to it if `leading`. -/
def splices (e : Editor) (range : Span) (leading : Bool) : List Splice :=
  let inRange (o : Nat) : Bool :=
    (range.start < o || (leading && o == range.start)) && o ≤ range.stop
  let inserts := (e.live.filter fun i => inRange i.offset).map fun i =>
    ⟨.empty i.offset, i.text, i.order⟩
  let replacements := (e.active.filter fun r => range.contains r.range).map fun r =>
    ⟨r.range, r.text, 0⟩
  Splice.sort (inserts ++ replacements)

/-- The text from `pos` to `stop` with splices written into it. -/
def weave (e : Editor) (stop : Nat) : (pos : Nat) → List Splice → Except EditError (List Char)
  | pos, [] => e.slice ⟨pos, stop⟩
  | pos, s :: ss =>
    if s.range.start < pos then e.weave stop pos ss
    else do
      let before ← e.slice ⟨pos, s.range.start⟩
      let after ← e.weave stop s.range.stop ss
      return before ++ s.text.toList ++ after

def renderBetween (e : Editor) (range : Span) (leading : Bool) : Except EditError String :=
  return String.ofList (← e.weave range.stop range.start (e.splices range leading))

/-- The whole text.  Every edit ever made has to be in bounds, those that count no more too. -/
def render (e : Editor) : Except EditError String := do
  e.inserts.forM fun i => e.checkBounds (.empty i.offset)
  e.replacements.forM fun r => e.checkBounds r.range
  e.renderBetween ⟨0, Text.byteLength e.source⟩ true

/-- The range is in bounds and no end of it lies inside a replacement. -/
def checkCrossing (e : Editor) (range : Span) : Except EditError Unit := do
  e.checkBounds range
  match e.active.find? fun r =>
      r.range.strictlyContains range.start || r.range.strictlyContains range.stop with
  | some r => .error (.overlapping r.range range)
  | none => .ok ()

/-- The text of a range without the inserts at its start. -/
def renderRange (e : Editor) (range : Span) : Except EditError String := do
  e.checkCrossing range
  e.renderBetween range false

/-- The text of a range with the inserts at its start. -/
def renderRangeInclusive (e : Editor) (range : Span) : Except EditError String := do
  e.checkCrossing range
  e.renderBetween range true

end Editor

end Respell
