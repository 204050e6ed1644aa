import Respell.Tree.Forest

/-!
Drafts: a tree as it is written down, before it is built.

A node is marked where it starts, before its kind is known, and the mark is completed behind all that the node holds.
Another node may precede one that is complete.  Its mark then stands behind what it holds, and the earlier mark says how
far ahead:

    a + b      start IDENT, parent 3    token    finish    start BINARY    token    …    finish

`resolve` puts the starts in order.  From the mark of the innermost node it follows the chain of parents and takes the
marks of these out, so that nothing comes of them when it gets there.

Marks are told by their positions, and a position at which no node starts is refused (`Misplaced`).
-/

namespace Respell.Grammar

mutual

/-- What has been written: tokens and nodes, one after the other. -/
inductive Written where
  | nil
  | token (index : Nat)
  | append (first second : Written)
  | node (n : Completed)

/-- A node that is complete: started in front of what it holds, or preceding its first node. -/
inductive Completed where
  | wrap (kind : Kind) (inside : Written)
  | precede (kind : Kind) (left : Completed) (rest : Written)

end

instance : Append Written := ⟨.append⟩

def Written.isNil : Written → Bool
  | nil => true
  | _ => false

/-! ## Entries -/

inductive Entry where
  /-- A node starts here; there is no kind until it is complete.  If another node precedes it, the mark of that one is
  so many entries ahead. -/
  | start (kind : Option Kind) (parent : Option Nat)
  | token (index : Nat)
  | finish
deriving DecidableEq, Repr

/-- The start of a node that is not complete, or that was taken out. -/
def Entry.tombstone : Entry := .start none none

/-- No node starts at the position of one that is to be completed, that is to be preceded, or that a chain of parents
leads to. -/
inductive Misplaced where
  | complete (position : Nat)
  | precede (position : Nat)
  | parent
deriving DecidableEq, Repr

/-- Changes the start of a node at a position. -/
def amend (es : Array Entry) (position : Nat) (change : Option Kind → Option Nat → Entry) : Option (Array Entry) :=
  match es[position]? with
  | some (.start kind parent) => some (es.setIfInBounds position (change kind parent))
  | _ => none

/-! ## Writing -/

/-- Writes behind the entries that there are. -/
abbrev Writing := StateT (Array Entry) (Except Misplaced)

/-- Marks the start of a node, and gives its position. -/
def mark : Writing Nat := fun es => .ok (es.size, es.push .tombstone)

/-- Ends a node that was marked. -/
def complete (position : Nat) (kind : Kind) : Writing Unit := fun es =>
  match amend es position fun _ parent => .start (some kind) parent with
  | some es => .ok ((), es.push .finish)
  | none => .error (.complete position)

/-- Marks the start of a node that holds the one at the position. -/
def markParent (position : Nat) : Writing Nat := do
  let parent ← mark
  fun es =>
    match amend es position fun kind _ => .start kind (some (parent - position)) with
    | some es => .ok (parent, es)
    | none => .error (.precede position)

mutual

def Written.write : Written → Writing Unit
  | .nil => return ()
  | .token index => modify (·.push (.token index))
  | .append first second => do
    first.write
    second.write
  | .node n => do
    let _ ← n.write

/-- Writes a node, and gives the position of its mark. -/
def Completed.write : Completed → Writing Nat
  | .wrap kind inside => do
    let position ← mark
    inside.write
    complete position kind
    return position
  | .precede kind left rest => do
    let position ← markParent (← left.write)
    rest.write
    complete position kind
    return position

end

/-- All that is written of a node. -/
def Completed.draft (n : Completed) : Except Misplaced (Array Entry) := Prod.snd <$> n.write #[]

/-! ## Resolving -/

/-- Takes out the marks that a chain of parents leads to, and gives their kinds, the innermost first.  The first parent
is counted from the entry before these. -/
def follow : (parent : Option Nat) → List Entry → Except Misplaced (List Kind × List Entry)
  | none, es => .ok ([], es)
  -- This is the mark that the chain has come from, and it is taken out by now.
  | some 0, es => .ok ([], es)
  | some 1, .start kind parent :: es => do
    let (kinds, es) ← follow parent es
    return (kind.toList ++ kinds, .tombstone :: es)
  | some (ahead + 2), e :: es => do
    let (kinds, es) ← follow (some (ahead + 1)) es
    return (kinds, e :: es)
  | _, _ => .error .parent

/-- The events of the first `count` entries, with the starts of nodes in order. -/
def resolveWithin : (count : Nat) → List Entry → Except Misplaced (List Event)
  | count + 1, .token index :: es => (.token index :: ·) <$> resolveWithin count es
  | count + 1, .finish :: es => (.finish :: ·) <$> resolveWithin count es
  | count + 1, .start none _ :: es => resolveWithin count es
  | count + 1, .start (some kind) parent :: es => do
    let (kinds, es) ← follow parent es
    (((kind :: kinds).reverse.map .start) ++ ·) <$> resolveWithin count es
  | _, _ => .ok []

def resolve (es : Array Entry) : Except Misplaced (List Event) := resolveWithin es.size es.toList

end Respell.Grammar
