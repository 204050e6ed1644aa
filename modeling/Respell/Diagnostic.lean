import Respell.Span

/-!
Diagnostics: a message about a span of the text it is reported on.
-/

namespace Respell

/-- A message, where it points, what is written under that place and what is added below. -/
structure Diagnostic where
  message : String
  range : Span
  label : String := "here"
  notes : List String := []
deriving DecidableEq, Repr

namespace Diagnostic

def withNote (d : Diagnostic) (note : String) : Diagnostic := { d with notes := d.notes ++ [note] }

end Diagnostic

end Respell
