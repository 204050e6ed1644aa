import Respell.Tree.Forest
import Mathlib.Computability.Language
import Mathlib.Order.CompletePartialOrder
import Mathlib.Order.ConditionallyCompleteLattice.Basic

/-!
What the nodes of a program without faults are made of.

A node is described by the row of its direct elements, each seen from outside: a token by its kind, a
node by its kind and by whether it is a loop or a conditional that starts with its body.  The language
`production k` holds the rows that a node of kind `k` may have, and a forest is *grammatical* if the row
of every node in it is one of those:

    parenExpr  →  ( expression )
    forExpr    →  for header body  |  block for header
    ifExpr     →  if expression body (newline? else alternate)?  |  block if expression
-/

namespace Respell

open List

open scoped Computability

/-- An element of a node, seen from outside. -/
inductive Symbol where
  | token (kind : Kind)
  | node (kind : Kind)
  /-- A loop or a conditional that starts with its body. -/
  | trailing (kind : Kind)
deriving DecidableEq, Repr

namespace Symbol

/-- The symbol of a node, given the row of its elements. -/
def ofNode (kind : Kind) : List Symbol → Symbol
  | .node _ :: _ => if kind = .forExpr ∨ kind = .ifExpr then .trailing kind else .node kind
  | _ => .node kind

theorem ofNode_of_ne {kind : Kind} (hf : kind ≠ .forExpr) (hi : kind ≠ .ifExpr) (row : List Symbol) :
    ofNode kind row = .node kind := by
  unfold ofNode
  split
  · rw [if_neg (by simp [hf, hi])]
  · rfl

def kind : Symbol → Kind
  | .token kind | .node kind | .trailing kind => kind

/-- Code stands behind the symbol. -/
def isSubstantial : Symbol → Bool
  | .token kind => !kind.isLayout
  | _ => true

end Symbol

namespace Syntax

variable {kinds : List Kind}

/-! ## Classes of nodes -/

/-- What may stand in the binding of a loop. -/
def isBinding : Kind → Bool
  | .ident | .this | .thisMember | .array | .memberExpr | .callExpr | .indexExpr => true
  | _ => false

/-- What another access or call may follow. -/
def isAttached : Kind → Bool
  | .literal | .parenExpr | .function => true
  | kind => isBinding kind

def isOperand : Kind → Bool
  | .prefixExpr | .binaryExpr => true
  | kind => isAttached kind

def isExpression : Kind → Bool
  | .assign | .existsAssign | .forExpr | .ifExpr => true
  | kind => isOperand kind

/-- What a parameter binds. -/
def isName : Kind → Bool
  | .ident | .this | .thisMember => true
  | _ => false

def isParameter : Kind → Bool
  | .defaultParam => true
  | kind => isName kind

/-- An element that may stand in a block between its ends. -/
def isStatement : Symbol → Bool
  | .node kind => kind == .returnStmt || isExpression kind
  | .trailing kind => kind == .forExpr || kind == .ifExpr
  | .token _ => false

def isItem : Symbol → Bool
  | .token kind => kind == .newline || kind == .semicolon || kind == .indent || kind == .outdent
  | s => isStatement s

/-! ## Rows of elements -/

/-- A token of one of these kinds. -/
def word (kinds : List Kind) : Language Symbol := {row | ∃ k ∈ kinds, row = [.token k]}

/-- A node of this class. -/
def node (p : Kind → Bool) : Language Symbol := {row | ∃ k, p k = true ∧ row = [.node k]}

def block : Language Symbol := node (· == .block)

def statement : Language Symbol := {row | ∃ s, isStatement s = true ∧ row = [s]}

def items : Language Symbol := {row | ∀ s ∈ row, isItem s = true}

/-- Some code stands in the row. -/
def filled : Language Symbol := {row | ∃ s ∈ row, s.isSubstantial = true}

/-- Members, divided by commas. -/
def separated (l : Language Symbol) : Language Symbol := (l * word [.comma])∗ * (1 + l)

/-- Bindings, `in` or `of`, the target and a filter. -/
def loopHeader : Language Symbol :=
  node isBinding * (1 + word [.comma] * node isBinding) * word [.inKw, .ofKw] * node isOperand *
    (1 + word [.whenKw] * node isOperand)

def body : Language Symbol := (1 + word [.thenKw]) * block

/-- What follows the consequence of a conditional. -/
def alternate : Language Symbol :=
  (1 + word [.newline]) * word [.elseKw] * (node (· == .ifExpr) + body)

/-- The parameters of a function, and its arrow. -/
def functionHead : Language Symbol :=
  word [.arrow, .fatArrow] + node (· == .paramList) * word [.arrow, .fatArrow]

/-- The rows that a node of this kind may have. -/
def production : Kind → Language Symbol
  | .literal => word [.number, .string, .trueKw, .falseKw, .nullKw, .undefinedKw]
  | .ident => word [.name]
  | .this => word [.thisKw, .atSign]
  | .thisMember => word [.atSign] * word [.name]
  | .parenExpr => word [.leftParen] * node isExpression * word [.rightParen]
  | .array => word [.leftBracket] * separated (node isExpression) * word [.rightBracket]
  | .argList => word [.leftParen] * separated (node isExpression) * word [.rightParen]
  | .paramList => word [.leftParen] * separated (node isParameter) * word [.rightParen]
  | .defaultParam => node isName * word [.eq] * node isExpression
  | .function => functionHead * (1 + block)
  | .memberExpr => node isAttached * word [.dot] * word [.name]
  | .callExpr => node isAttached * node (· == .argList)
  | .indexExpr => node isAttached * word [.leftBracket] * node isExpression * word [.rightBracket]
  | .prefixExpr => word [.bang, .notKw, .operator] * node isOperand
  | .binaryExpr =>
    node isOperand * word [.orKw, .andKw, .isKw, .isntKw, .operator] * node isOperand
  | .assign => node isOperand * word [.eq] * node isExpression
  | .existsAssign => node isOperand * word [.existsEq] * node isExpression
  | .returnStmt => word [.returnKw] * (1 + node isExpression)
  | .forExpr => word [.forKw] * loopHeader * body + block * word [.forKw] * loopHeader
  | .ifExpr =>
    word [.ifKw] * node isExpression * body * (1 + alternate) +
      block * word [.ifKw] * node isExpression
  | .block => items ⊓ filled
  | .program => block
  | _ => 0

theorem node_mono {p q : Kind → Bool} (h : ∀ k, p k = true → q k = true) : node p ≤ node q := by
  rintro row ⟨k, hk, rfl⟩
  exact ⟨k, h k hk, rfl⟩

theorem nil_mem_separated (l : Language Symbol) : [] ∈ separated l :=
  ⟨[], Language.nil_mem_kstar _, [], Or.inl rfl, rfl⟩

theorem le_separated (l : Language Symbol) : l ≤ separated l := fun row hrow =>
  ⟨[], Language.nil_mem_kstar _, row, Or.inr hrow, rfl⟩

/-- A member and a comma in front of more members. -/
theorem mul_separated_le (l : Language Symbol) : l * word [.comma] * separated l ≤ separated l := by
  rw [separated, ← mul_assoc]
  exact mul_le_mul' mul_kstar_le_kstar le_rfl

variable {l : Language Symbol} {row : List Symbol}

/-- A node that starts with a token does not start with its body. -/
theorem ofNode_of_word (h : row ∈ word kinds * l) (kind : Kind) : Symbol.ofNode kind row = .node kind := by
  obtain ⟨_, ⟨k, _, rfl⟩, rest, _, rfl⟩ := h
  rfl

theorem ofNode_of_block {kind : Kind} (h : row ∈ block * l) (hk : kind = .forExpr ∨ kind = .ifExpr) :
    Symbol.ofNode kind row = .trailing kind := by
  obtain ⟨_, ⟨k, _, rfl⟩, rest, _, rfl⟩ := h
  exact if_pos hk

theorem isItem_of_isStatement {s : Symbol} (h : isStatement s = true) : isItem s = true := by
  cases s <;> first | exact h | cases h

theorem isSubstantial_of_isStatement {s : Symbol} (h : isStatement s = true) : s.isSubstantial = true := by
  cases s <;> first | rfl | cases h

/-- A statement alone is a block. -/
theorem statement_le_block : statement ≤ production .block := by
  rintro row ⟨s, hs, rfl⟩
  refine ⟨?_, s, mem_singleton_self s, isSubstantial_of_isStatement hs⟩
  intro t ht
  rw [mem_singleton.1 ht]
  exact isItem_of_isStatement hs

/-! ## Code in every row -/

theorem word_le_filled (h : ∀ k ∈ kinds, k.isLayout = false) : word kinds ≤ filled := by
  rintro _ ⟨k, hk, rfl⟩
  exact ⟨.token k, mem_singleton_self _, by simp [Symbol.isSubstantial, h k hk]⟩

theorem node_le_filled (p : Kind → Bool) : node p ≤ filled := by
  rintro _ ⟨k, _, rfl⟩
  exact ⟨.node k, mem_singleton_self _, rfl⟩

theorem mul_le_filled (h : l ≤ filled) (m : Language Symbol) : l * m ≤ filled := by
  rintro _ ⟨row, hrow, more, _, rfl⟩
  obtain ⟨s, hs, hsub⟩ := h hrow
  exact ⟨s, mem_append_left _ hs, hsub⟩

theorem add_le_filled {m : Language Symbol} (hl : l ≤ filled) (hm : m ≤ filled) : l + m ≤ filled :=
  fun _ h => h.elim (hl ·) (hm ·)

/-- Every node has code of its own or of a node in it. -/
theorem production_le_filled (k : Kind) : production k ≤ filled := by
  unfold production
  split
  all_goals
    try unfold functionHead
    first
    | exact zero_le
    | exact inf_le_right
    | (apply_rules [add_le_filled, mul_le_filled, word_le_filled, node_le_filled]; all_goals decide)

/-! ## Rows by their elements -/

/-- Rows of elements that satisfy a predicate. -/
def every (P : Symbol → Prop) : Language Symbol := {row | ∀ s ∈ row, P s}

section Every

variable {P : Symbol → Prop} {l m : Language Symbol}

theorem one_le_every : 1 ≤ every P := by
  rintro _ rfl s hs
  cases hs

theorem mul_le_every (hl : l ≤ every P) (hm : m ≤ every P) : l * m ≤ every P := by
  rintro _ ⟨row, hrow, more, hmore, rfl⟩ s hs
  rcases mem_append.1 hs with hs | hs
  · exact hl hrow s hs
  · exact hm hmore s hs

theorem add_le_every (hl : l ≤ every P) (hm : m ≤ every P) : l + m ≤ every P :=
  fun _ h => h.elim (hl ·) (hm ·)

theorem kstar_le_every (h : l ≤ every P) : l∗ ≤ every P := by
  rintro _ ⟨rows, rfl, hrows⟩ s hs
  obtain ⟨row, hrow, hs⟩ := mem_flatten.1 hs
  exact h (hrows row hrow) s hs

theorem word_le_every {kinds : List Kind} (h : ∀ k ∈ kinds, P (.token k)) : word kinds ≤ every P := by
  rintro _ ⟨k, hk, rfl⟩ s hs
  rw [mem_singleton.1 hs]
  exact h k hk

theorem node_le_every {p : Kind → Bool} (h : ∀ k, p k = true → P (.node k)) : node p ≤ every P := by
  rintro _ ⟨k, hk, rfl⟩ s hs
  rw [mem_singleton.1 hs]
  exact h k hk

theorem separated_le_every (h : l ≤ every P) (hcomma : P (.token .comma)) : separated l ≤ every P :=
  mul_le_every (kstar_le_every (mul_le_every h (word_le_every (by simpa using hcomma)))) (add_le_every one_le_every h)

end Every

/-- No node holds a program. -/
theorem production_le_inner (k : Kind) : production k ≤ every fun s => s.kind ≠ .program := by
  have hitems : items ≤ every fun s => s.kind ≠ .program := by
    intro row hrow s hs
    have hitem := hrow s hs
    rintro heq
    cases s with
    | token kind | node kind | trailing kind =>
      cases (show kind = .program from heq)
      cases hitem
  unfold production
  split
  all_goals
    try unfold functionHead
    try unfold loopHeader
    try unfold body
    try unfold alternate
    first
    | exact zero_le
    | exact inf_le_left.trans hitems
    | skip
  all_goals
    repeat' first
      | refine separated_le_every ?_ (by decide)
      | refine add_le_every ?_ ?_
      | refine mul_le_every ?_ ?_
      | exact one_le_every
      | exact word_le_every (by decide)
      | exact node_le_every (by rintro _ h rfl; cases h)

end Syntax

/-! ## Forests -/

/-- The kind of a token of a stream; behind the last there is only the end. -/
def kindAt (tokens : List Token) (index : Nat) : Kind := (tokens[index]?.map Token.kind).getD .eof

/-- Numbers up to `b` and from there on. -/
theorem range'_append_range' {a b c : Nat} (hab : a ≤ b) (hbc : b ≤ c) :
    List.range' a (b - a) ++ List.range' b (c - b) = List.range' a (c - a) := by
  obtain ⟨m, rfl⟩ := Nat.exists_eq_add_of_le hab
  obtain ⟨n, rfl⟩ := Nat.exists_eq_add_of_le hbc
  rw [Nat.add_sub_cancel_left, Nat.add_sub_cancel_left, range'_append_1, Nat.add_assoc, Nat.add_sub_cancel_left]

namespace Forest

/-- A row of consecutive numbers, cut in two. -/
theorem range'_split {xs ys : List Nat} {a k : Nat} (h : xs ++ ys = List.range' a k) :
    ∃ m ≤ k, xs = List.range' a m ∧ ys = List.range' (a + m) (k - m) := by
  obtain ⟨m, hm, hxs, hys⟩ := range'_eq_append_iff.1 h.symm
  exact ⟨m, hm, hxs, by simpa using hys⟩

section Rows

variable {α : Type} (kinds : Nat → Kind) (kind : α → Kind)

/-- The row of the elements of a forest. -/
def symbols : Forest α → List Symbol
  | nil => []
  | token i rest => .token (kinds i) :: rest.symbols
  | node a inside rest => .ofNode (kind a) inside.symbols :: rest.symbols

/-- Every node of the forest has a row that its kind allows. -/
def Grammatical : Forest α → Prop
  | nil => True
  | token _ rest => rest.Grammatical
  | node a inside rest =>
    inside.symbols kinds kind ∈ Syntax.production (kind a) ∧ inside.Grammatical ∧ rest.Grammatical

end Rows

variable {α : Type} {kinds : Nat → Kind} {kind : α → Kind}

@[simp] theorem nil_append (g : Forest α) : nil.append g = g := rfl

@[simp] theorem append_nil (f : Forest α) : f.append nil = f := by
  induction f with
  | nil => rfl
  | token i rest ih => simp [append, ih]
  | node a inside rest _ ih => simp [append, ih]

@[simp] theorem tokens_append (f g : Forest α) : (f.append g).tokens = f.tokens ++ g.tokens := by
  induction f with
  | nil => rfl
  | token i rest ih => simp [append, tokens, ih]
  | node a inside rest _ ih => simp [append, tokens, ih]

@[simp] theorem events_append (f g : Forest Kind) : (f.append g).events = f.events ++ g.events := by
  induction f with
  | nil => rfl
  | token i rest ih => simp [append, events, ih]
  | node a inside rest _ ih => simp [append, events, ih]

@[simp] theorem symbols_append (f g : Forest α) :
    (f.append g).symbols kinds kind = f.symbols kinds kind ++ g.symbols kinds kind := by
  induction f with
  | nil => rfl
  | token i rest ih => simp [append, symbols, ih]
  | node a inside rest _ ih => simp [append, symbols, ih]

@[simp] theorem grammatical_append (f g : Forest α) :
    (f.append g).Grammatical kinds kind ↔ f.Grammatical kinds kind ∧ g.Grammatical kinds kind := by
  induction f with
  | nil => simp [Grammatical]
  | token i rest ih => simp [append, Grammatical, ih]
  | node a inside rest _ ih => simp [append, Grammatical, ih, and_assoc]

/-! ## Events -/

theorem nest_events_append (f : Forest Kind) (es : List Event) :
    nest (f.events ++ es) = (f.append (nest es).1, (nest es).2) := by
  induction f generalizing es with
  | nil => rfl
  | token i rest ih => simp [events, nest, ih, append]
  | node k inside rest ihInside ih =>
    simp [events, nest, ihInside, ih, append]

/-- A forest is what its events describe. -/
theorem ofEvents_events (f : Forest Kind) : ofEvents f.events = f := by
  have h := nest_events_append f []
  rw [List.append_nil] at h
  simp [ofEvents, h, nest]

end Forest

end Respell
