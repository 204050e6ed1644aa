import Respell.Proofs.Tree.Parsed
import Respell.Proofs.Tree.Functions

/-!
The views of a tree without faults have all their parts.

The grammar gives the row of a node, the row its elements, and the view is read off the elements.  A loop
has a header and a body, a conditional what it decides about, a function its arrow, an assignment both
sides.  What may be missing is announced by a token: the filter of a loop by `when`, the alternative of a
conditional by `else`.

    Parse.ofText_complete     no node of a text without faults lacks a part
-/

namespace Respell

open Syntax
open scoped Computability

variable {tree : Tree} {n : Node}

/-! ## What complete means -/

/-- The view of the loop `n` has what a loop needs. -/
structure LoopView.Complete (tree : Tree) (n : Node) (v : LoopView) : Prop where
  forToken : ∃ i ∈ v.forToken, tree.kindAt i = .forKw
  bindings : v.key.isSome = true ∨ v.value.isSome = true
  target : v.target.isSome = true
  filter : v.filter.isSome = true ↔ ∃ i ∈ n.ownTokens, tree.kindAt i = .whenKw
  body : ∃ b ∈ v.body, b.kind = .block

structure ConditionalView.Complete (tree : Tree) (v : ConditionalView) : Prop where
  ifToken : ∃ i ∈ v.ifToken, tree.kindAt i = .ifKw
  condition : v.condition.isSome = true
  consequent : v.consequent.isSome = true
  alternate : v.alternate.isSome = true ↔ v.elseToken.isSome = true
  trailing : v.isTrailing = true → v.alternate = none

structure FunctionView.Complete (tree : Tree) (v : FunctionView) : Prop where
  arrow : ∃ i ∈ v.arrow, tree.kindAt i = .arrow ∨ tree.kindAt i = .fatArrow
  params : ∀ p ∈ v.params,
    p.binding.kind = .ident ∨ p.binding.kind = .thisMember ∨ p.binding.kind = .this

structure AssignmentView.Complete (v : AssignmentView) : Prop where
  lhs : v.lhs.isSome = true
  rhs : v.rhs.isSome = true

/-- The node is no fault, and has the view and the number of nodes that its kind calls for. -/
structure Node.Complete (tree : Tree) (n : Node) : Prop where
  kind : n.kind ≠ .error
  loop : n.kind = .forExpr → ∃ v, LoopView.ofNode? tree n = some v ∧ v.Complete tree n
  conditional : n.kind = .ifExpr → ∃ v, ConditionalView.ofNode? tree n = some v ∧ v.Complete tree
  function : n.kind = .function → ∃ v, FunctionView.ofNode? tree n = some v ∧ v.Complete tree
  assignment : n.kind = .assign ∨ n.kind = .existsAssign →
    ∃ v, AssignmentView.ofNode? n = some v ∧ v.Complete
  paren : n.kind = .parenExpr → n.children.length = 1
  binary : n.kind = .binaryExpr → n.children.length = 2
  unary : n.kind = .prefixExpr → n.children.length = 1

/-! ## Loops -/

/-- Among the tokens of a header, only the one that announces a filter is `when`. -/
theorem Header.filter_isSome_iff {h : Header} (hs : h.Sound tree) :
    h.filter.isSome = true ↔ ∃ i, .token i ∈ h.items ∧ tree.kindAt i = .whenKw := by
  obtain ⟨first, second, word, target, filter⟩ := h
  obtain ⟨-, hsecond, hword, hfilter, -⟩ := hs
  have hne : tree.kindAt word ≠ .whenKw := by rcases hword with h | h <;> rw [h] <;> decide
  constructor
  · intro hsome
    obtain ⟨⟨i, c⟩, rfl⟩ := Option.isSome_iff_exists.1 hsome
    exact ⟨i, by simp [items, follow], hfilter i c rfl⟩
  · rintro ⟨i, hi, hk⟩
    cases filter with
    | some _ => rfl
    | none =>
      exfalso
      rcases second with _ | ⟨j, second⟩
      · obtain rfl : i = word := by simpa [items, follow] using hi
        exact hne hk
      · obtain rfl | rfl : i = j ∨ i = word := by simpa [items, follow] using hi
        · cases (hsecond i second rfl).1.symm.trans hk
        · exact hne hk

/-- The keyword of a loop and `then` are not `when`, so that the header decides about the filter. -/
theorem LoopShape.Of.filter_isSome_iff {s : LoopShape} (hs : s.Of tree n) :
    s.header.filter.isSome = true ↔ ∃ i ∈ n.ownTokens, tree.kindAt i = .whenKw := by
  rw [Header.filter_isSome_iff hs.header]
  constructor
  · rintro ⟨i, hi, hk⟩
    refine ⟨i, ?_, hk⟩
    rw [Node.mem_ownTokens, hs.items, LoopShape.items]
    split <;> simp [hi]
  · rintro ⟨i, hi, hk⟩
    refine ⟨i, ?_, hk⟩
    have hkeyword : i ≠ s.keyword := by
      rintro rfl
      cases hs.keyword.symm.trans hk
    have hthen : s.thenToken ≠ some i := by
      intro h
      cases (hs.thenToken i h).2.symm.trans hk
    rw [Node.mem_ownTokens, hs.items, LoopShape.items] at hi
    split at hi
    · simpa [hkeyword] using hi
    · simpa [hkeyword, hthen] using hi

theorem Node.Sound.loop_complete (h : n.Sound tree) (hk : n.kind = .forExpr) :
    ∃ v, LoopView.ofNode? tree n = some v ∧ v.Complete tree n := by
  obtain ⟨s, hs⟩ := h.exists_loopShape hk
  refine ⟨_, hs.view hk, ⟨s.keyword, rfl, hs.keyword⟩, ?_, rfl, ?_, ⟨s.body, rfl, hs.body⟩⟩
  · unfold Header.view
    by_cases hw : (tree.kindAt s.header.word == .ofKw) = true
    · left
      simp [hw]
    · right
      simp [hw]
  · rw [← hs.filter_isSome_iff]
    simp [Header.view]

/-! ## Conditionals -/

theorem Node.Sound.conditional_complete (h : n.Sound tree) (hk : n.kind = .ifExpr) :
    ∃ v, ConditionalView.ofNode? tree n = some v ∧ v.Complete tree := by
  have hrows := h.rows
  rw [hk, production] at hrows
  rcases hrows.add with hrows | hrows
  · obtain ⟨s, hs⟩ := Node.exists_conditionalShape hrows
    refine ⟨s.view, hs.view hk, ⟨s.keyword, rfl, hs.keyword⟩, rfl, rfl, ?_, fun h => by cases h⟩
    unfold ConditionalShape.view
    simp
  · obtain ⟨body, i, condition, -, hi, -, hview⟩ := Node.trailing_view hk hrows
    exact ⟨_, hview, ⟨i, rfl, hi⟩, rfl, rfl, Iff.rfl, fun _ => rfl⟩

/-! ## Functions -/

theorem Node.Sound.function_complete (h : n.Sound tree) (hk : n.kind = .function) :
    ∃ v, FunctionView.ofNode? tree n = some v ∧ v.Complete tree := by
  obtain ⟨s, hs⟩ := h.exists_functionShape hk
  refine ⟨s.view tree, hs.view hk, ⟨s.arrow, rfl, hs.arrow⟩, fun p hp => ?_⟩
  unfold FunctionView.params at hp
  split at hp
  case h_2 => cases hp
  case h_1 list hlist =>
    obtain ⟨c, hc, rfl⟩ := List.mem_map.1 hp
    have hsound : list.Sound tree := h.child (Node.mem_children.2 (by
      rw [hs.items, FunctionShape.items, show s.paramList = some list from hlist]
      simp))
    have hname : isName (ParamView.ofNode c).binding.kind = true := by
      rcases (hsound.child hc).param_cases (hsound.isParameter (hs.paramList list hlist) hc) with
        ⟨hname, hview⟩ | ⟨name, i, value, -, -, hname, hview⟩
      iterate 2
        · rw [hview]
          exact hname
    unfold isName at hname
    split at hname
    case h_1 heq => exact Or.inl heq
    case h_2 heq => exact Or.inr (Or.inr heq)
    case h_3 heq => exact Or.inr (Or.inl heq)
    case h_4 => cases hname

/-! ## Operators, parentheses and assignments -/

/-- Two nodes and a token between them. -/
theorem Rows.children_of_infix {p q : Kind → Bool} {kinds : List Kind}
    (h : Rows tree (Syntax.node p * Syntax.word kinds * Syntax.node q) n.items) :
    ∃ c d, n.children = [c, d] := by
  obtain ⟨_, _, hitems, h, hright⟩ := h.mul
  obtain ⟨_, _, rfl, hleft, hword⟩ := h.mul
  obtain ⟨c, rfl, -⟩ := hleft.node
  obtain ⟨i, rfl, -⟩ := hword.word
  obtain ⟨d, rfl, -⟩ := hright.node
  exact ⟨c, d, Node.children_eq hitems⟩

theorem Node.Sound.assignment_complete (h : n.Sound tree) (hk : n.kind = .assign ∨ n.kind = .existsAssign) :
    ∃ v, AssignmentView.ofNode? n = some v ∧ v.Complete := by
  obtain ⟨lhs, rhs, hchildren⟩ : ∃ lhs rhs, n.children = [lhs, rhs] := by
    have hrows := h.rows
    rcases hk with hk | hk
    iterate 2
      · rw [hk, production] at hrows
        exact hrows.children_of_infix
  refine ⟨_, if_pos hk, ?_, ?_⟩
  · rw [hchildren]
    rfl
  · rw [hchildren]
    rfl

theorem Node.Sound.complete (h : n.Sound tree) : n.Complete tree where
  kind := by
    intro hk
    have hrow := h.row
    rw [hk] at hrow
    exact hrow
  loop := h.loop_complete
  conditional := h.conditional_complete
  function := h.function_complete
  assignment := h.assignment_complete
  paren := by
    intro hk
    obtain ⟨c, hchildren, -⟩ := h.paren hk
    rw [hchildren]
    rfl
  binary := by
    intro hk
    have hrows := h.rows
    rw [hk, production] at hrows
    obtain ⟨c, d, hchildren⟩ := hrows.children_of_infix
    rw [hchildren]
    rfl
  unary := by
    intro hk
    have hrows := h.rows
    rw [hk, production] at hrows
    obtain ⟨_, _, hitems, hword, hoperand⟩ := hrows.mul
    obtain ⟨i, rfl, -⟩ := hword.word
    obtain ⟨c, rfl, -⟩ := hoperand.node
    rw [Node.children_eq hitems]
    rfl

/-! ## Whole trees -/

/-- A node of a kind that calls for nothing. -/
theorem Node.complete_of_kind (hk : n.kind = .program ∨ n.kind = .block) : n.Complete tree := by
  constructor <;> rcases hk with hk | hk <;> simp [hk]

/-- Around the nodes of the grammar there may be a program without code. -/
theorem Parse.sound_or_outer {text : List Char} (h : (Parse.ofText text).errors = []) {n : Node}
    (hn : n ∈ (Parse.ofText text).tree.root.descendants) :
    n.Sound (Parse.ofText text).tree ∨ n.kind = .program ∨ n.kind = .block := by
  rcases Parse.sound_ofText h with hroot | hblank
  · exact Or.inl (hroot.descendant hn).1
  · obtain ⟨block, hchildren, hblock, -, hnil⟩ := hblank.block
    -- All that is there is the program and its block.
    have hkinds := Node.forall_descendants
      (P := fun n => n = (Parse.ofText text).tree.root ∨ n = block) ?_ (Or.inl rfl) n hn
    · rcases hkinds with rfl | rfl
      · exact Or.inr (Or.inl hblank.kind)
      · exact Or.inr (Or.inr hblock)
    · rintro _ (rfl | rfl) c hc
      · rw [hchildren] at hc
        exact Or.inr (List.mem_singleton.1 hc)
      · rw [hnil] at hc
        cases hc

/-- A text that is read without faults gives a tree in which no node is a fault and none lacks a part. -/
theorem Parse.ofText_complete {text : List Char} (h : (Parse.ofText text).errors = []) :
    ∀ n ∈ (Parse.ofText text).tree.root.descendants, n.Complete (Parse.ofText text).tree := by
  intro n hn
  rcases Parse.sound_or_outer h hn with hsound | houter
  · exact hsound.complete
  · exact Node.complete_of_kind houter

/-- A text with a node of every kind that calls for parts. -/
theorem Parse.ofText_complete_all_kinds :
    let parse := Parse.ofText
      "f = (a, @b = 1) ->\n  g(-c + a) for c, d of (e) when a\n  h ?= if a then b else 2\n".toList
    parse.errors = [] ∧
      (∀ k ∈ [Kind.forExpr, .ifExpr, .function, .assign, .existsAssign, .parenExpr, .binaryExpr, .prefixExpr],
        ∃ n ∈ parse.tree.root.descendants, n.kind = k) ∧
      ∀ n ∈ parse.tree.root.descendants, n.Complete parse.tree :=
  ⟨by decide +kernel, by decide +kernel, Parse.ofText_complete (by decide +kernel)⟩

end Respell
