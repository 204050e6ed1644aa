/-!
Stretches of a text, given by byte offsets.

A span `⟨start, stop⟩` holds the bytes from `start` up to, and without, `stop`.  Offsets count the
bytes of the text in UTF-8.
-/

namespace Respell

/-- The bytes from `start` up to `stop`. -/
structure Span where
  start : Nat
  stop : Nat
deriving DecidableEq, Repr, Inhabited

namespace Span

/-- The span that holds nothing, at `offset`. -/
def empty (offset : Nat) : Span := ⟨offset, offset⟩

def isEmpty (s : Span) : Bool := s.start == s.stop

/-- `inner` lies in `outer`, ends included. -/
def contains (outer inner : Span) : Bool :=
  outer.start ≤ inner.start && inner.stop ≤ outer.stop

/-- The two spans share a byte. -/
def overlaps (a b : Span) : Bool := max a.start b.start < min a.stop b.stop

/-- `offset` lies in the span and is neither of its ends. -/
def strictlyContains (s : Span) (offset : Nat) : Bool := s.start < offset && offset < s.stop

/-- The least span that holds both. -/
def cover (a b : Span) : Span := ⟨min a.start b.start, max a.stop b.stop⟩

/-- The span as messages write it. -/
def text (s : Span) : String := s!"{s.start}..{s.stop}"

end Span

end Respell
