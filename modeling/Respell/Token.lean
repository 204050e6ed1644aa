import Respell.Kind
import Respell.Comment

/-!
Tokens and the result of reading a text into them.
-/

namespace Respell

/-- A piece of source text, or a mark of line structure. -/
structure Token where
  kind : Kind
  range : Span
deriving DecidableEq, Repr, Inhabited

namespace Token

/-- A token that stands for code rather than line structure. -/
def isSignificant (t : Token) : Bool := !t.kind.isLayout

end Token

/-- The tokens of a text, layout and the final end mark included, and the comments between them. -/
structure Lexed where
  tokens : List Token
  comments : List Comment
deriving DecidableEq, Repr

end Respell
