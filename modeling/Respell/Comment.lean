import Respell.Text

/-!
Comments of the source and their JavaScript spelling.

A line comment `# text` becomes `// text`; a block comment `### text ###` becomes `/* text */`.  Only
the delimiters change, so a comment can be respelled by edits of its ends.
-/

namespace Respell

inductive CommentKind where
  /-- From `#` to the end of the line. -/
  | line
  /-- From `###` to the next `###`, over any number of lines. -/
  | block
deriving DecidableEq, Repr

/-- A comment and where it stands. -/
structure Comment where
  kind : CommentKind
  range : Span
deriving DecidableEq, Repr

namespace Comment

/-- The text of a block comment has an opening and a closing delimiter. -/
def isClosed (body : List Char) : Bool :=
  6 ≤ Text.byteLength body && ['#', '#', '#'].isSuffixOf body

/-- The delimiters of a comment of `text`, each with its JavaScript spelling.  A block comment that
never ends has no closing one. -/
def delimiters (c : Comment) (text : List Char) : List (Span × String) :=
  match c.kind with
  | .line => [(⟨c.range.start, c.range.start + 1⟩, "//")]
  | .block =>
    let opening := (⟨c.range.start, c.range.start + 3⟩, "/*")
    if isClosed ((Text.slice? text c.range).getD []) then
      [opening, (⟨c.range.stop - 3, c.range.stop⟩, "*/")]
    else
      [opening]

/-- The comment of `text` as JavaScript writes it. -/
def javascript (c : Comment) (text : List Char) : String :=
  let body := (Text.slice? text c.range).getD []
  match c.kind with
  | .line => "//" ++ String.ofList (Text.dropBytes 1 body)
  | .block =>
    if isClosed body then
      "/*" ++ String.ofList (Text.dropBytes 3 (body.take (body.length - 3))) ++ "*/"
    else
      "/*" ++ String.ofList (Text.dropBytes 3 body)

end Comment

end Respell
