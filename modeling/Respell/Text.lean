import Respell.Span

/-!
Texts as lists of characters, addressed by byte offsets.

An offset is a *boundary* of a text if it is the byte length of one of the text's beginnings:

    splitBytes? n text = some (before, after) →
      before ++ after = text ∧ byteLength before = n

so a cut is either exact or refused, and `slice?` never splits a character.
-/

namespace Respell.Text

/-! ## Cutting -/

/-- How many bytes the characters take in UTF-8. -/
def byteLength : List Char → Nat
  | [] => 0
  | c :: cs => c.utf8Size + byteLength cs

/-- Cuts a text after `n` bytes; refused past the end and inside a character. -/
def splitBytes? : Nat → List Char → Option (List Char × List Char)
  | 0, text => some ([], text)
  | _ + 1, [] => none
  | n + 1, c :: cs =>
    if c.utf8Size ≤ n + 1 then
      (splitBytes? (n + 1 - c.utf8Size) cs).map fun (before, after) => (c :: before, after)
    else
      none

/-- A character of the text starts, or the text ends, at `offset`. -/
def isBoundary (text : List Char) (offset : Nat) : Bool := (splitBytes? offset text).isSome

/-- What is left after `n` bytes, nothing if the cut is refused. -/
def dropBytes (n : Nat) (text : List Char) : List Char := ((splitBytes? n text).map (·.2)).getD []

/-- The characters in a span; refused if an end of it is no boundary. -/
def slice? (text : List Char) (span : Span) : Option (List Char) :=
  if span.start ≤ span.stop then do
    let (_, after) ← splitBytes? span.start text
    let (inside, _) ← splitBytes? (span.stop - span.start) after
    return inside
  else
    none

/-- The characters in a span, nothing if the span is refused. -/
def slice (text : List Char) (span : Span) : String := String.ofList ((slice? text span).getD [])

/-! ## Lines

A line ends at a line feed and nowhere else. -/

/-- A space or a tab. -/
def isBlank (c : Char) : Bool := c == ' ' || c == '\t'

/-- A line feed or a carriage return. -/
def isLineBreak (c : Char) : Bool := c == '\n' || c == '\r'

/-- What follows the last line feed. -/
def lastLine (text : List Char) : List Char := (text.reverse.takeWhile (· != '\n')).reverse

/-- What stands on the line before `offset`, if that is nothing but blanks. -/
def lineIndent? (text : List Char) (offset : Nat) : Option String := do
  let (before, _) ← splitBytes? offset text
  let line := lastLine before
  if line.all isBlank then return String.ofList line else none

/-- The blanks at the start of the line that holds `offset`. -/
def indentOfLine (text : List Char) (offset : Nat) : String :=
  match splitBytes? offset text with
  | some (before, after) => String.ofList ((lastLine before ++ after).takeWhile isBlank)
  | none => ""

end Respell.Text
