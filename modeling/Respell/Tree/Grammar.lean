import Respell.Diagnostic
import Respell.Token.Lexer
import Respell.Tree.Basic
import Respell.Tree.Draft

/-!
The grammar: reading a token stream into a tree.

Each rule takes tokens from the front of the stream and answers with what it has written: tokens and nodes.  A node is
started in front of its first element, or it precedes a node that is complete already, as an operator's node precedes
its left operand although the operator comes after it.  Every token but the end mark is written once, in order; a token
that fits nowhere goes into a node of kind `error`.

The rules call each other through one function argument, and `parse` ties the knot with a bound on
the depth of calls.  Between two tokens only a few rules can be entered, so a bound proportional to the
number of tokens is never reached.
-/

namespace Respell.Grammar

/-! ## The stream -/

/-- The tokens ahead, what has passed, and the faults found so far, the latest first. -/
structure Cursor where
  text : List Char
  rest : List Token
  index : Nat := 0
  last : Option Token := none
  faults : List Diagnostic := []

namespace Cursor

/-- The kind of the token ahead; behind the last there is only the end. -/
def kind (c : Cursor) : Kind := (c.rest.head?.map Token.kind).getD .eof

/-- The kind of the token after the one ahead. -/
def nextKind (c : Cursor) : Kind := (c.rest[1]?.map Token.kind).getD .eof

/-- The text of the token ahead. -/
def spelling (c : Cursor) : String :=
  match c.rest with
  | t :: _ => Text.slice c.text t.range
  | [] => ""

/-- The token ahead is of this kind and follows the last one without a gap. -/
def isAdjacent (c : Cursor) (kind : Kind) : Bool :=
  match c.last, c.rest with
  | some last, t :: _ => t.kind == kind && last.isSignificant && t.range.start == last.range.stop
  | _, _ => false

/-- The token after the one ahead is of this kind and follows it without a gap. -/
def isNextAdjacent (c : Cursor) (kind : Kind) : Bool :=
  match c.rest with
  | t :: next :: _ => next.kind == kind && next.range.start == t.range.stop
  | _ => false

/-- Reports a fault at the token ahead. -/
def fault (c : Cursor) (message : String) : Cursor :=
  { c with faults := ⟨message, (c.rest.head?.map Token.range).getD (.empty 0), "here", []⟩ :: c.faults }

end Cursor

/-- Reads from the stream. -/
abbrev Parser := StateM Cursor

/-- What a rule has read: a node that others may precede, or only a part of what the rule is for. -/
inductive Piece where
  | node (n : Completed)
  | part (w : Written)

namespace Piece

def isComplete : Piece → Bool
  | node _ => true
  | part _ => false

def written : Piece → Written
  | node n => .node n
  | part w => w

end Piece

/-- A finished node. -/
def done (kind : Kind) (inside : Written) : Piece := .node (.wrap kind inside)

/-! ## Single tokens -/

/-- Takes the token ahead, unless the stream is at its end. -/
def take : Parser Written := fun c =>
  match c.rest with
  | [] => (.nil, c)
  | t :: rest =>
    if t.kind = .eof then (.nil, c)
    else (.token c.index, { c with rest, index := c.index + 1, last := some t })

def fault (message : String) : Parser Unit := modify (·.fault message)

/-- Takes the token ahead if it is of this kind. -/
def take? (kind : Kind) : Parser Written := do
  if (← get).kind = kind then take else return .nil

/-- Takes a token of this kind; another one ahead is a fault. -/
def expect (kind : Kind) (message : String) : Parser Written := do
  if (← get).kind = kind then take
  else
    fault message
    return .nil

/-- Puts the token ahead, which fits nowhere, into a node of its own. -/
def unexpected (message : String) : Parser Written := do
  fault message
  return .node (.wrap .error (← take))

/-! ## Rules -/

/-- Tokens that may start an expression. -/
def expressionFirst : KindSet :=
  .ofList [.number, .string, .trueKw, .falseKw, .nullKw, .undefinedKw, .thisKw, .name, .atSign,
    .leftParen, .leftBracket, .arrow, .fatArrow, .bang, .notKw, .operator, .forKw, .ifKw]

/-- Tokens that may start a statement. -/
def statementFirst : KindSet := expressionFirst.insert .returnKw

/-- Tokens that may start a parameter. -/
def parameterFirst : KindSet := .ofList [.name, .atSign]

/-- A sequence between brackets, its members divided by commas. -/
inductive Sequence where
  | arguments | elements | parameters
deriving DecidableEq, Repr

namespace Sequence

/-- The node that holds the sequence. -/
def kind : Sequence → Kind
  | arguments => .argList
  | elements => .array
  | parameters => .paramList

def close : Sequence → Kind
  | elements => .rightBracket
  | _ => .rightParen

/-- The fault of a comma without a member before it. -/
def missing : Sequence → String
  | arguments => "expected argument"
  | elements => "expected element"
  | parameters => "expected parameter"

/-- The fault of a sequence that is not closed. -/
def unclosed : Sequence → String
  | elements => "expected ']'"
  | _ => "expected ')'"

def first : Sequence → KindSet
  | parameters => parameterFirst
  | _ => expressionFirst

end Sequence

/-- The rules that call each other.  Some go on from a node that is complete already. -/
inductive Rule where
  /-- Statements up to a closing token. -/
  | statements (close : Kind)
  | statement
  /-- Trailing `for` and `if` after a statement. -/
  | suffixes (stmt : Completed)
  /-- An indented block. -/
  | block
  /-- Statements on the rest of a line. -/
  | inlineBlock
  /-- Further statements of such a line. -/
  | inlineRest
  | expression
  | conditional
  /-- Operators that bind tighter than `power`. -/
  | binary (power : Nat)
  | operators (power : Nat) (left : Completed)
  | unary
  /-- A primary expression with what is attached to its end. -/
  | attached
  | attachments (left : Completed)
  | primary
  /-- The members of a sequence that are still to come. -/
  | members (sequence : Sequence)

section Rules

variable (call : Rule → Parser Piece)

/-! ### Names, functions and sequences -/

/-- `@name`, or `@` alone. -/
def thisMember : Parser Piece := do
  let hasName := (← get).isNextAdjacent .name
  let sign ← take
  if hasName then return done .thisMember (sign ++ (← take)) else return done .this sign

/-- A loop binding that is not a pattern. -/
def identifier : Parser Written := do
  match (← get).kind with
  | .name => return .node (.wrap .ident (← take))
  | .eof =>
    fault "expected identifier"
    return .nil
  | _ => unexpected "expected identifier"

def parameter : Parser Piece := do
  let binding ← match (← get).kind with
    | .name => done .ident <$> take
    | .atSign => thisMember
    | _ => .part <$> unexpected "expected parameter"
  match binding with
  | .node name =>
    if (← get).kind = .eq then
      let eq ← take
      let value ← call .expression
      return .node (.precede .defaultParam name (eq ++ value.written))
    else
      return .node name
  | .part w => return .part w

def member : Sequence → Parser Piece
  | .parameters => parameter call
  | _ => call .expression

/-- The members that are still to come.  A comma without a member is a fault and passed over; members
without a comma between them are a fault; anything else ends the sequence. -/
def members (s : Sequence) : Parser Piece := do
  let kind := (← get).kind
  if kind = s.close ∨ kind = .eof then
    return .part .nil
  else if kind = .comma then
    let comma ← unexpected s.missing
    let more ← call (.members s)
    return .part (comma ++ more.written)
  else
    let first ← member call s
    if !first.isComplete then
      return .part first.written
    else if (← get).kind = .comma then
      let comma ← take
      let more ← call (.members s)
      return .part (first.written ++ comma ++ more.written)
    else if s.first.contains (← get).kind then
      fault "expected ','"
      let more ← call (.members s)
      return .part (first.written ++ more.written)
    else
      return .part first.written

/-- A whole sequence, from its opening bracket on. -/
def sequence (s : Sequence) : Parser Piece := do
  let opening ← take
  let inside ← call (.members s)
  let closing ← expect s.close s.unclosed
  return done s.kind (opening ++ inside.written ++ closing)

/-- An arrow follows the parenthesis that closes the one ahead; `depth` are open. -/
def arrowFollows : (depth : Nat) → List Token → Bool
  | _, [] => false
  | depth, t :: rest =>
    match t.kind with
    | .leftParen => arrowFollows (depth + 1) rest
    | .rightParen =>
      if depth ≤ 1 then
        match rest with
        | next :: _ => next.kind == .arrow || next.kind == .fatArrow
        | [] => false
      else
        arrowFollows (depth - 1) rest
    | .eof => false
    | _ => arrowFollows depth rest

def function : Parser Piece := do
  let params ←
    if (← get).kind = .leftParen then (·.written) <$> sequence call .parameters else pure .nil
  let arrow ← take
  let kind := (← get).kind
  let body ←
    if kind = .indent then (·.written) <$> call .block
    else if statementFirst.contains kind then (.node <| .wrap .block ·.written) <$> call .statement
    else pure .nil
  return done .function (params ++ arrow ++ body)

/-! ### Expressions -/

def primary : Parser Piece := do
  let c ← get
  match c.kind with
  | .number | .string | .trueKw | .falseKw | .nullKw | .undefinedKw => return done .literal (← take)
  | .name => return done .ident (← take)
  | .thisKw => return done .this (← take)
  | .atSign => thisMember
  | .arrow | .fatArrow => function call
  | .leftParen =>
    if arrowFollows 0 c.rest then
      function call
    else
      let opening ← take
      let inside ← call .expression
      let closing ← expect .rightParen "expected ')'"
      return done .parenExpr (opening ++ inside.written ++ closing)
  | .leftBracket => sequence call .elements
  | kind =>
    if kind.isLayout then
      fault "expected expression"
      return .part .nil
    else
      return .part (← unexpected "expected expression")

/-- Member accesses, calls and index accesses after `left`. -/
def attachments (left : Completed) : Parser Piece := do
  let c ← get
  if c.kind = .dot then
    let dot ← take
    let name ← expect .name "expected property name"
    call (.attachments (.precede .memberExpr left (dot ++ name)))
  else if c.isAdjacent .leftParen then
    let arguments ← sequence call .arguments
    call (.attachments (.precede .callExpr left arguments.written))
  else if c.isAdjacent .leftBracket then
    let opening ← take
    let index ← call .expression
    let closing ← expect .rightBracket "expected ']'"
    call (.attachments (.precede .indexExpr left (opening ++ index.written ++ closing)))
  else
    return .node left

def attached : Parser Piece := do
  match ← call .primary with
  | .node n => call (.attachments n)
  | .part w => return .part w

/-- The token ahead is an operator in front of its operand. -/
def isSign (c : Cursor) : Bool :=
  match c.kind with
  | .bang | .notKw => true
  | .operator => c.spelling == "-" || c.spelling == "+"
  | _ => false

def unary : Parser Piece := do
  if isSign (← get) then
    let sign ← take
    let operand ← call .unary
    return done .prefixExpr (sign ++ operand.written)
  else
    call .attached

/-- How tight an operator spelled with signs binds. -/
def operatorPower : String → Nat
  | "||" => 1
  | "&&" => 2
  | "==" | "!=" => 3
  | "<" | ">" | "<=" | ">=" => 4
  | "+" | "-" => 5
  | _ => 6

/-- How tight the operator ahead binds. -/
def power? (c : Cursor) : Option Nat :=
  match c.kind with
  | .orKw => some 1
  | .andKw => some 2
  | .isKw | .isntKw => some 3
  | .operator => some (operatorPower c.spelling)
  | _ => none

/-- Operators after `left` that bind tighter than `least`. -/
def operators (least : Nat) (left : Completed) : Parser Piece := do
  match power? (← get) with
  | some power =>
    if least < power then
      let operator ← take
      let right ← call (.binary power)
      call (.operators least (.precede .binaryExpr left (operator ++ right.written)))
    else
      return .node left
  | none => return .node left

def binary (least : Nat) : Parser Piece := do
  match ← call .unary with
  | .node left => call (.operators least left)
  | .part w => return .part w

def assignment : Parser Piece := do
  match ← call (.binary 0) with
  | .node lhs =>
    let kind := (← get).kind
    if kind = .eq ∨ kind = .existsEq then
      let sign ← take
      let rhs ← call .expression
      return .node (.precede (if kind = .eq then .assign else .existsAssign) lhs (sign ++ rhs.written))
    else
      return .node lhs
  | .part w => return .part w

/-! ### Loops and conditionals -/

def loopBinding : Parser Written := do
  match (← get).kind with
  | .name | .atSign | .leftBracket => (·.written) <$> call .attached
  | _ => identifier

/-- Bindings, `in` or `of`, the target and a filter, after the keyword. -/
def loopHeader : Parser Written := do
  let first ← loopBinding call
  let comma ← take? .comma
  let second ← if comma.isNil then pure .nil else loopBinding call
  let kind := (← get).kind
  let relation ←
    if kind = .inKw ∨ kind = .ofKw then take
    else do
      fault "expected 'in' or 'of'"
      pure .nil
  let target ← call (.binary 0)
  let keyword ← take? .whenKw
  let filter ← if keyword.isNil then pure .nil else (·.written) <$> call (.binary 0)
  return first ++ comma ++ second ++ relation ++ target.written ++ keyword ++ filter

/-- A body: `then` and the rest of the line, or an indented block. -/
def body : Parser Written := do
  let keyword ← take? .thenKw
  if (← get).kind = .indent then
    return keyword ++ (← call .block).written
  else if keyword.isNil then
    fault "expected 'then' or an indented block"
    return .nil
  else
    return keyword ++ (← call .inlineBlock).written

def loop : Parser Piece := do
  let keyword ← take
  let header ← loopHeader call
  let inside ← body call
  return done .forExpr (keyword ++ header ++ inside)

/-- What follows `else`. -/
def alternate : Parser Written := do
  match (← get).kind with
  | .ifKw => (·.written) <$> call .conditional
  | .indent => (·.written) <$> call .block
  | _ =>
    let keyword ← take? .thenKw
    return keyword ++ (← call .inlineBlock).written

/-- A conditional.  Its `else` may stand on a line of its own. -/
def conditional : Parser Piece := do
  let keyword ← take
  let condition ← call .expression
  let consequent ← body call
  let c ← get
  let newline ← if c.kind = .newline ∧ c.nextKind = .elseKw then take else pure .nil
  let keywordElse ← take? .elseKw
  let otherwise ← if keywordElse.isNil then pure .nil else alternate call
  return done .ifExpr (keyword ++ condition.written ++ consequent ++ newline ++ keywordElse ++ otherwise)

def expression : Parser Piece := do
  match (← get).kind with
  | .forKw => loop call
  | .ifKw => call .conditional
  | _ => assignment call

/-! ### Statements -/

/-- Trailing loops and conditionals, each with all that stands before it as its body. -/
def suffixes (stmt : Completed) : Parser Piece := do
  let body : Completed := .precede .block stmt .nil
  match (← get).kind with
  | .forKw =>
    let keyword ← take
    let header ← loopHeader call
    call (.suffixes (.precede .forExpr body (keyword ++ header)))
  | .ifKw =>
    let keyword ← take
    let condition ← call .expression
    call (.suffixes (.precede .ifExpr body (keyword ++ condition.written)))
  | _ => return .node stmt

def statement : Parser Piece := do
  if (← get).kind = .returnKw then
    let keyword ← take
    let value ←
      if expressionFirst.contains (← get).kind then (·.written) <$> call .expression else pure .nil
    call (.suffixes (.wrap .returnStmt (keyword ++ value)))
  else
    match ← call .expression with
    | .node stmt => call (.suffixes stmt)
    | .part w => return .part w

/-- Statements up to `close`, divided by line ends or semicolons. -/
def statements (close : Kind) : Parser Piece := do
  let kind := (← get).kind
  if kind = .newline ∨ kind = .semicolon then
    let divider ← take
    let more ← call (.statements close)
    return .part (divider ++ more.written)
  else if kind = close ∨ kind = .eof then
    return .part .nil
  else
    let stmt ← call .statement
    let next := (← get).kind
    if next = close ∨ next = .eof then
      return .part stmt.written
    else
      let divider ←
        if next = .newline ∨ next = .semicolon then take
        else if next = .indent then unexpected "unexpected indentation"
        else unexpected "expected end of statement"
      let more ← call (.statements close)
      return .part (stmt.written ++ divider ++ more.written)

def block : Parser Piece := do
  let opening ← take
  let inside ← call (.statements .outdent)
  let closing ← expect .outdent "expected end of block"
  return done .block (opening ++ inside.written ++ closing)

def inlineRest : Parser Piece := do
  let c ← get
  if c.kind = .semicolon ∧ statementFirst.contains c.nextKind then
    let divider ← take
    let stmt ← call .statement
    let more ← call .inlineRest
    return .part (divider ++ stmt.written ++ more.written)
  else
    return .part .nil

def inlineBlock : Parser Piece := do
  let stmt ← call .statement
  let more ← call .inlineRest
  return done .block (stmt.written ++ more.written)

/-- What a rule reads, given what the rules it calls read. -/
def read : Rule → Parser Piece
  | .statements close => statements call close
  | .statement => statement call
  | .suffixes stmt => suffixes call stmt
  | .block => block call
  | .inlineBlock => inlineBlock call
  | .inlineRest => inlineRest call
  | .expression => expression call
  | .conditional => conditional call
  | .binary power => binary call power
  | .operators power left => operators call power left
  | .unary => unary call
  | .attached => attached call
  | .attachments left => attachments call left
  | .primary => primary call
  | .members s => members call s

end Rules

/-- Reads by a rule, with calls nested at most `depth` deep. -/
def parse : (depth : Nat) → Rule → Parser Piece
  | 0, _ => return .part .nil
  | depth + 1, rule => read (parse depth) rule

/-- More than the rules that can be entered between two tokens. -/
def callsPerToken : Nat := 16

/-- The node of a program, and the faults found, in order. -/
def root (text : List Char) (tokens : List Token) : Completed × List Diagnostic :=
  let depth := callsPerToken * (tokens.length + 1)
  let (piece, cursor) := parse depth (.statements .eof) { text, rest := tokens }
  (.wrap .program (.node (.wrap .block piece.written)), cursor.faults.reverse)

/-- The events of a program and the faults found, in order.  No mark is misplaced in what is written of it. -/
def program (text : List Char) (tokens : List Token) : List Event × List Diagnostic :=
  let (n, faults) := root text tokens
  (match n.draft >>= resolve with
    | .ok events => events
    | .error _ => [], faults)

end Respell.Grammar
