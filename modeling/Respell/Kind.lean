/-!
The kinds of tokens and of nodes.

Tokens come first, nodes after them, and `Kind.number` is the place in that order.  Layout kinds
describe line structure and cover no code; keywords are the names that `Kind.ofKeyword?` knows.
-/

namespace Respell

/-- What a token or a node is. -/
inductive Kind where
  | leftParen | rightParen | leftBracket | rightBracket
  | comma | dot | semicolon | atSign | arrow | fatArrow | eq | existsEq | bang | operator
  | forKw | inKw | ofKw | whenKw | thenKw | ifKw | elseKw | returnKw
  | trueKw | falseKw | nullKw | undefinedKw | thisKw
  | andKw | orKw | notKw | isKw | isntKw
  | name | number | string
  | newline | indent | outdent
  | unknown | eof
  | program | block | returnStmt | forExpr | ifExpr
  | function | paramList | defaultParam | assign | existsAssign
  | binaryExpr | prefixExpr | callExpr | argList | memberExpr | indexExpr | parenExpr
  | array | ident | thisMember | this | literal
  | error | tombstone
deriving DecidableEq, Repr, Inhabited

namespace Kind

/-- Every kind, in order. -/
def all : List Kind :=
  [leftParen, rightParen, leftBracket, rightBracket,
   comma, dot, semicolon, atSign, arrow, fatArrow, eq, existsEq, bang, operator,
   forKw, inKw, ofKw, whenKw, thenKw, ifKw, elseKw, returnKw,
   trueKw, falseKw, nullKw, undefinedKw, thisKw,
   andKw, orKw, notKw, isKw, isntKw,
   name, number, string,
   newline, indent, outdent,
   unknown, eof,
   program, block, returnStmt, forExpr, ifExpr,
   function, paramList, defaultParam, assign, existsAssign,
   binaryExpr, prefixExpr, callExpr, argList, memberExpr, indexExpr, parenExpr,
   array, ident, thisMember, this, literal,
   error, tombstone]

/-- The place of a kind in `all`. -/
def index (k : Kind) : Nat := k.ctorIdx

/-- Line structure: no code stands behind such a token. -/
def isLayout : Kind → Bool
  | newline | indent | outdent | eof => true
  | _ => false

def isKeyword (k : Kind) : Bool := forKw.index ≤ k.index && k.index ≤ isntKw.index

/-- The keyword that a name spells. -/
def ofKeyword? : String → Option Kind
  | "for" => some forKw
  | "in" => some inKw
  | "of" => some ofKw
  | "when" => some whenKw
  | "then" => some thenKw
  | "if" => some ifKw
  | "else" => some elseKw
  | "return" => some returnKw
  | "true" => some trueKw
  | "false" => some falseKw
  | "null" => some nullKw
  | "undefined" => some undefinedKw
  | "this" => some thisKw
  | "and" => some andKw
  | "or" => some orKw
  | "not" => some notKw
  | "is" => some isKw
  | "isnt" => some isntKw
  | _ => none

/-- The words that messages use for a node of this kind. -/
def describe : Kind → String
  | program => "program"
  | block => "block"
  | returnStmt => "return statement"
  | forExpr => "'for' loop"
  | ifExpr => "conditional"
  | function => "function"
  | paramList => "parameter list"
  | defaultParam => "default parameter"
  | assign => "assignment"
  | existsAssign => "existence assignment"
  | binaryExpr => "binary expression"
  | prefixExpr => "prefix expression"
  | callExpr => "call"
  | memberExpr => "member access"
  | indexExpr => "index access"
  | parenExpr => "parenthesized expression"
  | array => "array"
  | ident => "identifier"
  | thisMember => "'this' member"
  | this => "'this'"
  | literal => "literal"
  | _ => "token"

/-- The kind as dumps of a tree write it. -/
def label : Kind → String
  | leftParen => "LEFT_PAREN"
  | rightParen => "RIGHT_PAREN"
  | leftBracket => "LEFT_BRACKET"
  | rightBracket => "RIGHT_BRACKET"
  | comma => "COMMA"
  | dot => "DOT"
  | semicolon => "SEMICOLON"
  | atSign => "AT"
  | arrow => "ARROW"
  | fatArrow => "FAT_ARROW"
  | eq => "EQ"
  | existsEq => "EXISTS_EQ"
  | bang => "BANG"
  | operator => "OPERATOR"
  | forKw => "FOR_KW"
  | inKw => "IN_KW"
  | ofKw => "OF_KW"
  | whenKw => "WHEN_KW"
  | thenKw => "THEN_KW"
  | ifKw => "IF_KW"
  | elseKw => "ELSE_KW"
  | returnKw => "RETURN_KW"
  | trueKw => "TRUE_KW"
  | falseKw => "FALSE_KW"
  | nullKw => "NULL_KW"
  | undefinedKw => "UNDEFINED_KW"
  | thisKw => "THIS_KW"
  | andKw => "AND_KW"
  | orKw => "OR_KW"
  | notKw => "NOT_KW"
  | isKw => "IS_KW"
  | isntKw => "ISNT_KW"
  | name => "NAME"
  | number => "NUMBER"
  | string => "STRING"
  | newline => "NEWLINE"
  | indent => "INDENT"
  | outdent => "OUTDENT"
  | unknown => "UNKNOWN"
  | eof => "EOF"
  | program => "PROGRAM"
  | block => "BLOCK"
  | returnStmt => "RETURN_STMT"
  | forExpr => "FOR_EXPR"
  | ifExpr => "IF_EXPR"
  | function => "FUNCTION"
  | paramList => "PARAM_LIST"
  | defaultParam => "DEFAULT_PARAM"
  | assign => "ASSIGN"
  | existsAssign => "EXISTS_ASSIGN"
  | binaryExpr => "BINARY_EXPR"
  | prefixExpr => "PREFIX_EXPR"
  | callExpr => "CALL_EXPR"
  | argList => "ARG_LIST"
  | memberExpr => "MEMBER_EXPR"
  | indexExpr => "INDEX_EXPR"
  | parenExpr => "PAREN_EXPR"
  | array => "ARRAY"
  | ident => "IDENT"
  | thisMember => "THIS_MEMBER"
  | this => "THIS"
  | literal => "LITERAL"
  | error => "ERROR"
  | tombstone => "TOMBSTONE"

/-- The kind that a dump writes in this way. -/
def ofLabel? (text : String) : Option Kind := all.find? fun k => k.label == text

end Kind

/-- A set of kinds, such as those that may start an expression. -/
structure KindSet where
  members : List Kind
deriving DecidableEq, Repr

namespace KindSet

def empty : KindSet := ⟨[]⟩

def insert (s : KindSet) (k : Kind) : KindSet := if k ∈ s.members then s else ⟨k :: s.members⟩

def ofList (ks : List Kind) : KindSet := ks.foldl insert empty

def contains (s : KindSet) (k : Kind) : Bool := s.members.contains k

/-- The members in the order of `Kind.all`. -/
def toList (s : KindSet) : List Kind := Kind.all.filter s.contains

end KindSet

end Respell
