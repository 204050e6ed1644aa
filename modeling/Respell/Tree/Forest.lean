import Respell.Token

/-!
Forests of nodes over a token stream, and the events that describe them.

A forest is a sequence of elements, each a token or a node with a forest inside.  Read from left to
right it is a list of events, and every list of events, balanced or not, can be read back:

    ofEvents f.events = f

`ofEvents` works from the right: `nest` gives the forests between the finish events that close
nothing, so a token goes in front of the first of them, a finish event opens a new one, and a start
event takes the first as its inside and the second as what follows it.
-/

namespace Respell

/-- A step of a walk over a forest. -/
inductive Event where
  | start (kind : Kind)
  | token (index : Nat)
  | finish
deriving DecidableEq, Repr

/-- A sequence of tokens, given by their place in the stream, and labelled nodes. -/
inductive Forest (α : Type) where
  | nil
  | token (index : Nat) (rest : Forest α)
  | node (label : α) (inside rest : Forest α)
deriving DecidableEq, Repr

namespace Forest

variable {α : Type}

def append : Forest α → Forest α → Forest α
  | nil, g => g
  | token i rest, g => token i (rest.append g)
  | node a inside rest, g => node a inside (rest.append g)

/-- The tokens of a forest, from left to right. -/
def tokens : Forest α → List Nat
  | nil => []
  | token i rest => i :: rest.tokens
  | node _ inside rest => inside.tokens ++ rest.tokens

/-- The labels of a forest, parents before children. -/
def labels : Forest α → List α
  | nil => []
  | token _ rest => rest.labels
  | node a inside rest => a :: (inside.labels ++ rest.labels)

/-! ## Events -/

/-- The walk over a forest. -/
def events : Forest Kind → List Event
  | nil => []
  | token i rest => .token i :: rest.events
  | node k inside rest => .start k :: (inside.events ++ .finish :: rest.events)

/-- The forest up to the first finish event that closes nothing, and those after it. -/
def nest : List Event → Forest Kind × List (Forest Kind)
  | [] => (nil, [])
  | .token i :: es => let (f, fs) := nest es; (token i f, fs)
  | .finish :: es => let (f, fs) := nest es; (nil, f :: fs)
  | .start k :: es =>
    match nest es with
    | (inside, []) => (node k inside nil, [])
    | (inside, rest :: fs) => (node k inside rest, fs)

/-- The forest that events describe.  A finish event without a node to close means nothing; a node
that is never closed reaches to the end. -/
def ofEvents (es : List Event) : Forest Kind := (nest es).2.foldl append (nest es).1

end Forest

end Respell
