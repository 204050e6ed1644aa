import Respell.Kind
import Respell.Comment
import Respell.Text.Identifier

/-!
What stands at the front of a text: one token, or one comment.

Both scanners look at the text from its first character on and answer with a kind and a number of
characters.  `scan` takes at least one character of a text that has one; a character that starts no
token is a token of kind `unknown`.
-/

namespace Respell.Lexeme

open Text

/-! ## Names, numbers, strings -/

def isNameStart (c : Char) : Bool := c == '_' || c == '$' || isIdentifierStart c

def isNamePart (c : Char) : Bool := c == '$' || isIdentifierPart c

/-- The kind of a whole name: a keyword, or a plain name. -/
def nameKind (letters : List Char) : Kind := (Kind.ofKeyword? (String.ofList letters)).getD .name

def isDigitOrGap (c : Char) : Bool := c == '_' || c.isDigit

def isHexDigitOrGap (c : Char) : Bool :=
  isDigitOrGap c || ('a' ≤ c && c ≤ 'f') || ('A' ≤ c && c ≤ 'F')

/-- How many characters at the front satisfy `p`. -/
def run (p : Char → Bool) (text : List Char) : Nat := (text.takeWhile p).length

/-- The fraction of a number: a point and digits, the first of which is not a gap. -/
def fraction : List Char → Nat
  | '.' :: d :: text => if d.isDigit then 1 + run isDigitOrGap (d :: text) else 0
  | _ => 0

/-- The exponent of a number: its letter, a sign if there is one, and digits if there are any. -/
def exponent : List Char → Nat
  | e :: text =>
    if e == 'e' || e == 'E' then
      match text with
      | '-' :: digits | '+' :: digits => 2 + run isDigitOrGap digits
      | digits => 1 + run isDigitOrGap digits
    else
      0
  | [] => 0

/-- A number, from its first digit on. -/
def number : List Char → Nat
  | '0' :: 'x' :: digits => 2 + run isHexDigitOrGap digits
  | '0' :: 'b' :: digits | '0' :: 'o' :: digits => 2 + run isDigitOrGap digits
  | text =>
    let whole := run isDigitOrGap text
    let part := fraction (text.drop whole)
    whole + part + exponent (text.drop (whole + part))

/-- The rest of a string after its opening quote.  A backslash takes the next character with it; a line
feed or the end of the text leaves the string open. -/
def quoted (quote : Char) : List Char → Kind × Nat
  | [] => (.unknown, 0)
  | ['\\'] => (.unknown, 1)
  | '\\' :: _ :: text => let (kind, n) := quoted quote text; (kind, n + 2)
  | c :: text =>
    if c == '\n' then (.unknown, 1)
    else if c == quote then (.string, 1)
    else let (kind, n) := quoted quote text; (kind, n + 1)

/-! ## Tokens -/

/-- The token at the front of a text, and how many characters it takes. -/
def scan : List Char → Kind × Nat
  | [] => (.eof, 0)
  | '(' :: _ => (.leftParen, 1)
  | ')' :: _ => (.rightParen, 1)
  | '[' :: _ => (.leftBracket, 1)
  | ']' :: _ => (.rightBracket, 1)
  | ',' :: _ => (.comma, 1)
  | '.' :: _ => (.dot, 1)
  | ';' :: _ => (.semicolon, 1)
  | '@' :: _ => (.atSign, 1)
  | '-' :: '>' :: _ => (.arrow, 2)
  | '=' :: '>' :: _ => (.fatArrow, 2)
  | '=' :: '=' :: _ => (.operator, 2)
  | '=' :: _ => (.eq, 1)
  | '?' :: '=' :: _ => (.existsEq, 2)
  | '!' :: '=' :: _ => (.operator, 2)
  | '!' :: _ => (.bang, 1)
  | '<' :: '=' :: _ | '>' :: '=' :: _ => (.operator, 2)
  | '<' :: _ | '>' :: _ => (.operator, 1)
  | '&' :: '&' :: _ | '|' :: '|' :: _ => (.operator, 2)
  | '+' :: _ | '-' :: _ | '*' :: _ | '/' :: _ | '%' :: _ => (.operator, 1)
  | c :: text =>
    if c == '"' || c == '\'' then
      let (kind, n) := quoted c text
      (kind, n + 1)
    else if c.isDigit then
      (.number, number (c :: text))
    else if isNameStart c then
      let letters := c :: text.takeWhile isNamePart
      (nameKind letters, letters.length)
    else
      (.unknown, 1)

/-! ## Comments -/

/-- The rest of a block comment after its opening delimiter. -/
def blockRest : List Char → Nat
  | [] => 0
  | '#' :: '#' :: '#' :: _ => 3
  | _ :: text => 1 + blockRest text

/-- The comment at the front of a text that starts with `#`.  Four signs in a row open no block. -/
def scanComment (text : List Char) : CommentKind × Nat :=
  match text with
  | '#' :: '#' :: '#' :: '#' :: _ => (.line, run (!isLineBreak ·) text)
  | '#' :: '#' :: '#' :: inside => (.block, 3 + blockRest inside)
  | _ => (.line, run (!isLineBreak ·) text)

end Respell.Lexeme
