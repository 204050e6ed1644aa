import Respell.Token
import Respell.Token.Lexeme

/-!
Reading a text into tokens.

The lexer is a machine that takes at least one character per step.  It is either inside a line or in
front of one.  In front of a line it skips blanks, comments and further line breaks, counting the
blanks since the last of those; at the first character of code it compares that column with the open
blocks and writes the layout tokens:

    column > top                  INDENT
    otherwise                     one OUTDENT per block left, then NEWLINE

Inside brackets a line break is a blank.  At the end of the text every open block is closed.
-/

namespace Respell

open Text

/-- Where the lexer stands. -/
inductive Lexer.Place where
  /-- In front of a line of code, after the line break `newline` if there was a line before, with
  `column` blanks passed. -/
  | front (newline : Option Span) (column : Nat)
  | inside
deriving DecidableEq, Repr

/-- The lexer between two steps.  `tokens` and `comments` hold the latest first. -/
structure Lexer where
  rest : List Char
  offset : Nat := 0
  place : Lexer.Place := .front none 0
  /-- Columns of the open blocks, the innermost first. -/
  blocks : List Nat := []
  /-- Open brackets. -/
  depth : Nat := 0
  /-- Where the last significant token ended. -/
  lastEnd : Nat := 0
  tokens : List Token := []
  comments : List Comment := []
deriving Repr

namespace Lexer

/-! ## One step -/

/-- Passes `n` characters. -/
def skip (s : Lexer) (n : Nat) : Lexer :=
  { s with rest := s.rest.drop n, offset := s.offset + byteLength (s.rest.take n) }

def push (s : Lexer) (kind : Kind) (range : Span) : Lexer :=
  { s with tokens := ⟨kind, range⟩ :: s.tokens }

def comment (s : Lexer) : Lexer :=
  let (kind, n) := Lexeme.scanComment s.rest
  let next := s.skip n
  { next with comments := ⟨kind, ⟨s.offset, next.offset⟩⟩ :: s.comments }

/-- Leaves the blocks that are deeper than `column`, never the outermost. -/
def dedent (column : Nat) : List Nat → List Nat
  | top :: below :: more => if column < top then dedent column (below :: more) else top :: below :: more
  | blocks => blocks

/-- Writes `n` block ends after the last significant token. -/
def outdent (s : Lexer) (n : Nat) : Lexer :=
  { s with tokens := List.replicate n ⟨.outdent, .empty s.lastEnd⟩ ++ s.tokens }

/-- Writes the layout in front of a line of code that starts at `column`. -/
def layout (s : Lexer) (newline : Option Span) (column : Nat) : Lexer :=
  match newline with
  | none => { s with blocks := [column] }
  | some range =>
    if s.blocks.headD 0 < column then
      { s with blocks := column :: s.blocks }.push .indent (.empty s.offset)
    else
      let blocks := dedent column s.blocks
      ({ s with blocks }.outdent (s.blocks.length - blocks.length)).push .newline range

/-- The depth of brackets after a token. -/
def bracketDepth (depth : Nat) : Kind → Nat
  | .leftParen | .leftBracket => depth + 1
  | .rightParen | .rightBracket => depth - 1
  | _ => depth

/-- Takes the token at the front. -/
def token (s : Lexer) : Lexer :=
  let (kind, n) := Lexeme.scan s.rest
  let next := s.skip n
  { next with place := .inside, depth := bracketDepth s.depth kind, lastEnd := next.offset }.push kind
    ⟨s.offset, next.offset⟩

/-- How many characters the line break at the front takes. -/
def lineBreak : List Char → Nat
  | '\r' :: '\n' :: _ => 2
  | _ => 1

/-- Takes the next token, comment, blank or line break. -/
def step (s : Lexer) : Lexer :=
  match s.rest with
  | [] => s
  | c :: _ =>
    match s.place with
    | .front newline column =>
      if isBlank c then { s.skip 1 with place := .front newline (column + 1) }
      else if isLineBreak c then { s.skip 1 with place := .front newline 0 }
      else if c == '#' then { s.comment with place := .front newline 0 }
      else (s.layout newline column).token
    | .inside =>
      if isBlank c then s.skip 1
      else if c == '#' then s.comment
      else if isLineBreak c then
        if 0 < s.depth then s.skip 1
        else
          let next := s.skip (lineBreak s.rest)
          { next with place := .front (some ⟨s.offset, next.offset⟩) 0 }
      else s.token

/-! ## Whole texts -/

/-- `n` steps. -/
def steps : Nat → Lexer → Lexer
  | 0, s => s
  | n + 1, s => steps n s.step

/-- Closes the open blocks and writes the end mark. -/
def finish (s : Lexer) : Lexed :=
  let closed := (s.outdent (s.blocks.length - 1)).push .eof (.empty s.offset)
  ⟨closed.tokens.reverse, closed.comments.reverse⟩

end Lexer

/-- Reads a text into tokens.  Each step passes a character, so as many steps as there are characters
reach the end. -/
def Lexed.ofText (text : List Char) : Lexed := (Lexer.steps text.length { rest := text }).finish

end Respell
