import Respell.Proofs.Grammar.Precedence
import Respell.Proofs.Tree.Complete

/-!
Chains of operators.

A binary expression with the binary expressions that are its operands, and theirs, is a chain of operands with operators
between them, put into a tree (`Operation`).  In the tree of a text without faults every operation is `Leaning`: to the
left of an operator stand operators that bind at least as tight, to its right such that bind tighter.  A chain can be
put into a leaning tree in one way only (`Operation.Leaning.unique`), with the last of the loosest operators at the top.
-/

namespace Respell

open List

/-! ## Operations -/

/-- An operand, or two operations with an operator between them. -/
inductive Operation where
  | operand (n : Node)
  | binary (operator : Nat) (left right : Operation)
deriving DecidableEq, Repr

namespace Operation

/-- The operands from left to right. -/
def operands : Operation → List Node
  | operand n => [n]
  | binary _ left right => left.operands ++ right.operands

/-- The operators from left to right. -/
def operators : Operation → List Nat
  | operand _ => []
  | binary i left right => left.operators ++ i :: right.operators

/-- All tokens from left to right. -/
def tokens : Operation → List Nat
  | operand n => n.toForest.tokens
  | binary i left right => left.tokens ++ i :: right.tokens

/-- The operator at the top. -/
def operator? : Operation → Option Nat
  | operand _ => none
  | binary i _ _ => some i

/-- A left operand binds at least as tight as the operator, a right one tighter. -/
def Leaning (power : Nat → Nat) : Operation → Prop
  | operand _ => True
  | binary i left right => (∀ j ∈ left.operator?, power i ≤ power j) ∧ (∀ j ∈ right.operator?, power i < power j) ∧
      left.Leaning power ∧ right.Leaning power

theorem length_operands (t : Operation) : t.operands.length = t.operators.length + 1 := by
  induction t with
  | operand n => rfl
  | binary i left right ihl ihr =>
    simp only [operands, operators, length_append, length_cons, ihl, ihr]
    omega

namespace Leaning

variable {power : Nat → Nat} {t t' l r : Operation} {i : Nat}

/-- No operator is looser than the one at the top. -/
theorem le_of_mem (h : t.Leaning power) {j : Nat} (hj : j ∈ t.operators) : ∃ i ∈ t.operator?, power i ≤ power j := by
  induction t with
  | operand n => cases hj
  | binary i left right ihl ihr =>
    obtain ⟨hleft, hright, hl, hr⟩ := h
    refine ⟨i, rfl, ?_⟩
    rcases mem_append.1 hj with hj | hj
    · obtain ⟨k, hk, hkj⟩ := ihl hl hj
      exact (hleft k hk).trans hkj
    · rcases mem_cons.1 hj with rfl | hj
      · exact Nat.le_refl _
      · obtain ⟨k, hk, hkj⟩ := ihr hr hj
        exact (hright k hk).le.trans hkj

/-- The operators to the left of the top one are no looser. -/
theorem left (h : (binary i l r).Leaning power) {j : Nat} (hj : j ∈ l.operators) : power i ≤ power j := by
  obtain ⟨k, hk, hkj⟩ := le_of_mem h.2.2.1 hj
  exact (h.1 k hk).trans hkj

/-- Those to its right are tighter. -/
theorem right (h : (binary i l r).Leaning power) {j : Nat} (hj : j ∈ r.operators) : power i < power j := by
  obtain ⟨k, hk, hkj⟩ := le_of_mem h.2.2.2 hj
  exact (h.2.1 k hk).trans_le hkj

/-- Where the operator at the top of one tree stands to the left of that of the other, they would not be the same
chain. -/
theorem not_before {i' : Nat} {l' r' : Operation} (h : (binary i l r).Leaning power)
    (h' : (binary i' l' r').Leaning power) {between : List Nat} (hleft : l'.operators = l.operators ++ i :: between)
    (hright : r.operators = between ++ i' :: r'.operators) : False := by
  have hle : power i' ≤ power i := left h' (by simp [hleft])
  have hlt : power i < power i' := right h (by simp [hright])
  omega

/-- The last of the loosest operators of a chain is at the top. -/
theorem split {i' : Nat} {l' r' : Operation} (h : (binary i l r).Leaning power)
    (h' : (binary i' l' r').Leaning power)
    (heq : l.operators ++ i :: r.operators = l'.operators ++ i' :: r'.operators) :
    l.operators = l'.operators ∧ i = i' ∧ r.operators = r'.operators := by
  rcases append_eq_append_iff.1 heq with ⟨between, hleft, hrest⟩ | ⟨between, hleft, hrest⟩
  · cases between with
    | nil => simp_all
    | cons k between =>
      obtain ⟨rfl, hright⟩ := List.cons.inj hrest
      exact (not_before h h' hleft hright).elim
  · cases between with
    | nil => simp_all
    | cons k between =>
      obtain ⟨rfl, hright⟩ := List.cons.inj hrest
      exact (not_before h' h hleft hright).elim

/-- A chain can be put into a leaning tree in one way only. -/
theorem unique (h : t.Leaning power) (h' : t'.Leaning power) (hoperands : t.operands = t'.operands)
    (hoperators : t.operators = t'.operators) : t = t' := by
  induction t generalizing t' with
  | operand n =>
    cases t' with
    | operand n' => rw [singleton_inj.1 hoperands]
    | binary i' left' right' => simp [operators] at hoperators
  | binary i left right ihl ihr =>
    cases t' with
    | operand n' => simp [operators] at hoperators
    | binary i' left' right' =>
      obtain ⟨hl, rfl, hr⟩ := split h h' hoperators
      have hlength : left.operands.length = left'.operands.length := by
        rw [length_operands, length_operands, hl]
      obtain ⟨hl', hr'⟩ := append_inj hoperands hlength
      rw [ihl h.2.2.1 h'.2.2.1 hl' hl, ihr h.2.2.2 h'.2.2.2 hr' hr]

end Leaning

end Operation

/-! ## Operations of nodes -/

/-- The operation of a node with this label. -/
def Forest.operation (l : Label) : Forest Label → Operation
  | .node a left (.token i (.node b right .nil)) =>
    if l.kind = .binaryExpr then .binary i (left.operation a) (right.operation b)
    else .operand ⟨l, .node a left (.token i (.node b right .nil))⟩
  | inside => .operand ⟨l, inside⟩

/-- The binary expressions from this node on down to the first operands that are none. -/
def Node.operation (n : Node) : Operation := n.elements.operation n.toLabel

/-- The operator of a binary expression. -/
def Node.operator? (n : Node) : Option Nat := if n.kind = .binaryExpr then n.ownTokens.head? else none

/-- How tight the operator at a place binds. -/
def Tree.power (tree : Tree) (i : Nat) : Nat := powerAt tree.text tree.tokens i

namespace Forest

variable {power : Nat → Nat} {l : Label} {f : Forest Label}

/-- An operation has the tokens of its node, in their order. -/
theorem tokens_operation (l : Label) (f : Forest Label) : (f.operation l).tokens = f.tokens := by
  fun_induction operation l f with
  | case1 l a left i b right hk ihl ihr => simp [Operation.tokens, tokens, ihl, ihr]
  | case2 l a left i b right hk => simp [Operation.tokens, Node.toForest, tokens]
  | case3 l inside h => simp [Operation.tokens, Node.toForest, tokens]

theorem operator?_operation (l : Label) (f : Forest Label) : (f.operation l).operator? = f.operator? Label.kind l := by
  fun_induction operation l f with
  | case1 l a left i b right hk => exact (if_pos hk).symm
  | case2 l a left i b right hk => exact (if_neg hk).symm
  | case3 l inside hshape => grind [operator?, Operation.operator?]

/-- The operation of a node whose operands bind tight enough. -/
theorem leaning_operation (h : f.Ordered Label.kind power l) (hf : f.Ranked Label.kind power) :
    (f.operation l).Leaning power ∧ ∀ o ∈ (f.operation l).operands, o.kind ≠ .binaryExpr := by
  fun_induction operation l f with
  | case1 l a left i b right hk ihl ihr =>
    obtain ⟨_, _, _, _, _, heq, hleft, hright⟩ := h.binary hk
    cases heq
    obtain ⟨hl, hl'⟩ := ihl hf.1 hf.2.1
    obtain ⟨hr, hr'⟩ := ihr hf.2.2.1 hf.2.2.2.1
    rw [← operator?_operation] at hleft hright
    refine ⟨⟨hleft, hright, hl, hr⟩, fun o ho => ?_⟩
    exact (mem_append.1 ho).elim (hl' o) (hr' o)
  | case2 l a left i b right hk => exact ⟨trivial, fun o ho => by cases mem_singleton.1 ho; exact hk⟩
  | case3 l inside hshape =>
    refine ⟨trivial, fun o ho hk => ?_⟩
    cases mem_singleton.1 ho
    obtain ⟨_, _, _, _, _, rfl, -⟩ := h.binary hk
    exact hshape _ _ _ _ _ rfl

/-- Every node in a ranked forest has operands that bind tight enough. -/
theorem Ranked.descendant (h : f.Ranked Label.kind power) {d : Node} (hd : d ∈ f.descendants) :
    d.elements.Ordered Label.kind power d.toLabel ∧ d.elements.Ranked Label.kind power := by
  induction f with
  | nil => cases hd
  | token i rest ih => exact ih h hd
  | node a inside rest ihInside ih =>
    rcases mem_cons.1 hd with rfl | hd
    · exact ⟨h.1, h.2.1⟩
    · exact (mem_append.1 hd).elim (ihInside h.2.1) (ih h.2.2)

end Forest

/-! ## Whole trees -/

/-- The operators of the node `n` bind by their powers. -/
structure Node.Binds (tree : Tree) (n : Node) : Prop where
  binary : n.kind = .binaryExpr → ∃ left i right, n.items = [.node left, .token i, .node right] ∧
    (∀ j ∈ left.operator?, tree.power i ≤ tree.power j) ∧ (∀ j ∈ right.operator?, tree.power i < tree.power j)
  sign : n.kind = .prefixExpr → ∀ c ∈ n.children, c.kind ≠ .binaryExpr
  attached : n.kind = .callExpr ∨ n.kind = .memberExpr ∨ n.kind = .indexExpr → ∃ c rest, n.children = c :: rest ∧
    c.kind ≠ .binaryExpr ∧ c.kind ≠ .prefixExpr ∧ c.kind ≠ .assign ∧ c.kind ≠ .existsAssign
  /-- The chain that the node stands for: its tokens, with no chain left among the operands. -/
  tokens : n.operation.tokens = n.toForest.tokens
  operands : ∀ o ∈ n.operation.operands, o.kind ≠ .binaryExpr
  leaning : n.operation.Leaning tree.power
  unique : ∀ t : Operation, t.Leaning tree.power → t.operands = n.operation.operands →
    t.operators = n.operation.operators → t = n.operation

/-- In a binary expression with its parts the operator is its only token. -/
theorem Forest.Ordered.operator?_eq {power : Nat → Nat} {n : Node}
    (h : n.elements.Ordered Label.kind power n.toLabel) : n.operator? = n.elements.operator? Label.kind n.toLabel := by
  by_cases hk : n.kind = .binaryExpr
  · obtain ⟨l, fl, i, r, fr, hinside, -⟩ := h.binary hk
    rw [Node.operator?, Node.ownTokens, if_pos hk, hinside]
    exact (if_pos hk).symm
  · rw [Node.operator?, if_neg hk, Forest.operator?_of_ne hk]

/-- What another access or call follows is no operation. -/
theorem Node.Sound.attached {tree : Tree} {n : Node} (h : n.Sound tree)
    (hk : n.kind = .callExpr ∨ n.kind = .memberExpr ∨ n.kind = .indexExpr) :
    ∃ c rest, n.children = c :: rest ∧ Syntax.isAttached c.kind = true := by
  obtain ⟨l, hl⟩ : ∃ l, Syntax.production n.kind = Syntax.node Syntax.isAttached * l := by
    rcases hk with hk | hk | hk <;> rw [hk, Syntax.production]
    · exact ⟨_, rfl⟩
    · exact ⟨_, mul_assoc _ _ _⟩
    · exact ⟨_, by rw [mul_assoc, mul_assoc]⟩
  have hrows := h.rows
  rw [hl] at hrows
  obtain ⟨_, _, hitems, hfirst, -⟩ := hrows.mul
  obtain ⟨c, rfl, hc⟩ := hfirst.node
  exact ⟨c, _, Node.children_eq hitems, hc.1⟩

/-- Operators bind by their powers: a text without faults has its chains in the one order that leans to the left. -/
theorem Parse.binds_ofText {text : List Char} (h : (Parse.ofText text).errors = []) :
    ∀ n ∈ (Parse.ofText text).tree.root.descendants, n.Binds (Parse.ofText text).tree := by
  intro n hn
  have hranked := Parse.ranked_ofText h
  have hsound := Parse.sound_or_outer h hn
  generalize (Parse.ofText text).tree = tree at *
  obtain ⟨hordered, hinside⟩ := hranked.descendant hn
  obtain ⟨hleaning, hoperands⟩ := Forest.leaning_operation hordered hinside
  refine ⟨fun hk => ?_, fun hk => ?_, fun hk => ?_, ?_, hoperands, hleaning, fun t ht hto hti => ?_⟩
  · obtain ⟨l, fl, i, r, fr, heq, hleft, hright⟩ := hordered.binary hk
    rw [heq] at hinside
    refine ⟨⟨l, fl⟩, i, ⟨r, fr⟩, by rw [Node.items, heq]; rfl, ?_, ?_⟩
    · rwa [Forest.Ordered.operator?_eq hinside.1]
    · rwa [Forest.Ordered.operator?_eq hinside.2.2.1]
  · obtain ⟨i, r, fr, heq, hr⟩ := hordered.sign hk
    intro c hc
    rw [Node.children, heq] at hc
    cases mem_singleton.1 hc
    exact hr
  · rcases hsound with hsound | houter
    · obtain ⟨c, rest, hchildren, hc⟩ := hsound.attached hk
      refine ⟨c, rest, hchildren, ?_⟩
      refine ⟨?_, ?_, ?_, ?_⟩ <;> (intro hkind; rw [hkind] at hc; cases hc)
    · rcases houter with ho | ho <;> simp [ho] at hk
  · rw [Node.operation, Forest.tokens_operation]
    simp [Node.toForest, Forest.tokens]
  · exact ht.unique hleaning hto hti

/-- A text with a chain of seven operators, and accesses, calls and signs among its operands. -/
theorem Parse.binds_ofText_chain :
    let parse := Parse.ofText "x = a or not b.c is -d(1) + e * 2 - f[0] < 3 and (g or h)\n".toList
    parse.errors = [] ∧
      (∃ n ∈ parse.tree.root.descendants, n.operation.operators.length = 7) ∧
      ∀ n ∈ parse.tree.root.descendants, n.Binds parse.tree :=
  ⟨by decide +kernel, by decide +kernel, Parse.binds_ofText (by decide +kernel)⟩

end Respell
