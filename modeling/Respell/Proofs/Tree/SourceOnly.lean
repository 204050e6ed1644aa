import Mathlib.Data.Set.Basic
import Respell.Proofs.Grammar.Signs
import Respell.Proofs.Tree.Located
import Respell.Proofs.Tree.Shape

/-!
Tokens of the source language that JavaScript does not have.

Such a token stands directly in a node of a few kinds: members of `this`, functions, operators, assignments by
existence, loops and conditionals (`Node.Sound.kind_of_own`).  All others in a node are those of its children
(`Node.sourceOnly_cases`).
-/

namespace Respell

open Syntax

/-- The kinds of tokens that JavaScript does not have or may spell otherwise. -/
def Kind.isSuspect : Kind → Bool
  | .atSign | .thenKw | .whenKw | .andKw | .orKw | .notKw | .isKw | .isntKw | .existsEq | .arrow | .operator => true
  | _ => false

/-- JavaScript does not have the token, or spells it otherwise. -/
def Token.isSourceOnly (text : List Char) (t : Token) : Bool :=
  match t.kind with
  | .operator => Text.slice text t.range == "==" || Text.slice text t.range == "!="
  | k => k.isSuspect

/-- The kinds of nodes with such tokens of their own. -/
def Kind.hasSuspects : Kind → Bool
  | .this | .thisMember | .function | .prefixExpr | .binaryExpr | .existsAssign | .forExpr | .ifExpr => true
  | _ => false

def Symbol.isSuspect : Symbol → Bool
  | .token k => k.isSuspect
  | _ => false

theorem Syntax.production_le_plain {k : Kind} (hk : k.hasSuspects = false) :
    production k ≤ every fun s => s.isSuspect = false := by
  have hitems : items ≤ every fun s => s.isSuspect = false := by
    intro row hrow s hs
    have hitem := hrow s hs
    cases s with
    | token k => cases k <;> first | rfl | cases hitem
    | node | trailing => rfl
  unfold production
  split
  all_goals first
    | (cases hk; done)
    | exact zero_le
    | exact inf_le_left.trans hitems
    | skip
  all_goals
    repeat' first
      | refine separated_le_every ?_ rfl
      | refine add_le_every ?_ ?_
      | refine mul_le_every ?_ ?_
      | exact one_le_every
      | exact word_le_every (by decide)
      | exact node_le_every fun _ _ => rfl

namespace Token

variable {text : List Char} {t : Token}

theorem isSuspect_of_isSourceOnly (h : t.isSourceOnly text = true) : t.kind.isSuspect = true := by
  unfold isSourceOnly at h
  split at h
  · rename_i hk
    rw [hk]
    rfl
  · exact h

theorem isSignificant_of_isSourceOnly (h : t.isSourceOnly text = true) : t.isSignificant = true := by
  have hk := isSuspect_of_isSourceOnly h
  unfold isSignificant
  cases heq : t.kind <;> rw [heq] at hk <;> first | rfl | cases hk

end Token

/-- Where the token at an index stands, if JavaScript does not have it. -/
def Tree.sourceOnlyAt (tree : Tree) (i : Nat) : Set Span :=
  {r | ∃ t, tree.token? i = some t ∧ t.isSourceOnly tree.text = true ∧ r = t.range}

variable {tree : Tree} {r : Span}

theorem Tree.isSuspect_of_mem {i : Nat} (h : r ∈ tree.sourceOnlyAt i) : (tree.kindAt i).isSuspect = true := by
  obtain ⟨t, ht, hs, -⟩ := h
  rw [Tree.kindAt, ht]
  exact Token.isSuspect_of_isSourceOnly hs

/-- Where the tokens of a tree stand that JavaScript does not have. -/
def Tree.sourceOnly (tree : Tree) : Set Span := {r | (∃ i, r ∈ tree.sourceOnlyAt i) ∧ r.start < r.stop}

/-- Where the tokens in a node stand that JavaScript does not have. -/
def Node.sourceOnly (tree : Tree) (n : Node) : Set Span := {r | ∃ i ∈ n.elements.tokens, r ∈ tree.sourceOnlyAt i}

/-- Where such tokens stand in some nodes. -/
def Node.sourceOnlyIn (tree : Tree) (cs : List Node) : Set Span := {r | ∃ c ∈ cs, r ∈ c.sourceOnly tree}

/-- Where such tokens stand in an element. -/
def Item.sourceOnly (tree : Tree) : Item → Set Span
  | token i => tree.sourceOnlyAt i
  | node n => n.sourceOnly tree

namespace Node

variable {n c : Node}

/-! ## In a node and in its elements -/

theorem mem_sourceOnly : r ∈ n.sourceOnly tree ↔ ∃ x ∈ n.items, r ∈ x.sourceOnly tree := by
  have hitem (x : Item) : r ∈ x.sourceOnly tree ↔ ∃ i ∈ x.tokens, r ∈ tree.sourceOnlyAt i := by
    cases x with
    | token i => simp [Item.sourceOnly, Item.tokens]
    | node c => rfl
  simp only [hitem, sourceOnly, Forest.tokens_eq_flatMap, List.mem_flatMap, Set.mem_ofPred_eq]
  constructor
  · rintro ⟨i, ⟨x, hx, hi⟩, hr⟩
    exact ⟨x, hx, i, hi, hr⟩
  · rintro ⟨x, hx, i, hi, hr⟩
    exact ⟨i, ⟨x, hx, hi⟩, hr⟩

theorem sourceOnly_cases (hr : r ∈ n.sourceOnly tree) :
    (∃ i ∈ n.ownTokens, r ∈ tree.sourceOnlyAt i) ∨ r ∈ sourceOnlyIn tree n.children := by
  obtain ⟨x, hx, hr⟩ := mem_sourceOnly.1 hr
  cases x with
  | token i => exact Or.inl ⟨i, Node.mem_ownTokens.2 hx, hr⟩
  | node c => exact Or.inr ⟨c, Node.mem_children.2 hx, hr⟩

theorem Sound.kind_of_own (h : n.Sound tree) {i : Nat} (hi : i ∈ n.ownTokens) (hr : r ∈ tree.sourceOnlyAt i) :
    n.kind.hasSuspects = true := by
  by_contra hk
  have hrow := production_le_plain (Bool.eq_false_iff.2 hk) h.rows (.token (tree.kindAt i))
    (List.mem_map.2 ⟨.token i, Node.mem_ownTokens.1 hi, rfl⟩)
  cases (Tree.isSuspect_of_mem hr).symm.trans hrow

/-- A node without such tokens of its own. -/
theorem Sound.sourceOnly_subset_children (h : n.Sound tree) (hk : n.kind.hasSuspects = false) :
    n.sourceOnly tree ⊆ sourceOnlyIn tree n.children := by
  intro r hr
  rcases sourceOnly_cases hr with ⟨i, hi, hr⟩ | hr
  · cases (h.kind_of_own hi hr).symm.trans hk
  · exact hr

/-- Parentheses have no such tokens of their own. -/
theorem Sound.sourceOnly_unwrapParens (h : n.Sound tree) : n.sourceOnly tree ⊆ n.unwrapParens.sourceOnly tree := by
  refine Node.Sound.parens_induction (P := fun n => n.sourceOnly tree ⊆ n.unwrapParens.sourceOnly tree)
    (fun n _ hk => ?_) (fun n c hn hk hchildren _ hunwrap _ _ hc => ?_) n h
  · rw [Node.unwrapParens_of_ne hk]
  · intro r hr
    rw [hunwrap]
    obtain ⟨d, hd, hr⟩ := hn.sourceOnly_subset_children (by rw [hk]; rfl) hr
    rw [hchildren] at hd
    cases List.mem_singleton.1 hd
    exact hc hr

/-! ## In the range of a node -/

/-- The token lies in the range of a node if it is one of its tokens. -/
theorem Sound.within_of_mem (h : n.Sound tree) {i : Nat} (hi : i ∈ n.elements.tokens) {t : Token}
    (ht : tree.token? i = some t) (hs : t.isSignificant = true) :
    n.range.start ≤ t.range.start ∧ t.range.start < t.range.stop ∧ t.range.stop ≤ n.range.stop := by
  obtain ⟨a, k, htokens, reach, hspans, -, hrange⟩ := h.placed.1.reach
  have hbounds : a ≤ i ∧ i < a + k := by
    rw [show n.elements.tokens = _ from htokens] at hi
    simpa [List.mem_range'_1] using hi
  have hcode : Reach.ofToken tree.tokens i ≠ none := by
    rw [Reach.ofToken_eq_some.2 ⟨t, ht, hs, rfl⟩]
    exact nofun
  have hfirst : reach.first ≤ i := Nat.le_of_not_lt fun hlt => hcode (hspans.before i hbounds.1 hlt)
  have hlast : i ≤ reach.last := Nat.le_of_not_lt fun hlt => hcode (hspans.after i hlt hbounds.2)
  obtain ⟨first, hgetFirst, hsigFirst, hstart⟩ := hspans.first
  obtain ⟨last, hgetLast, hsigLast, hstop⟩ := hspans.last
  rw [show n.range = _ from hrange, ← hstart, ← hstop]
  exact ⟨(h.ordered.le hfirst hgetFirst ht hsigFirst hs).1, (h.ordered.inside_of_getElem? ht hs).nonempty,
    (h.ordered.le hlast ht hgetLast hs hsigLast).2⟩

theorem Sound.mem_of_within (h : n.Sound tree) {i : Nat} {t : Token} (ht : tree.token? i = some t)
    (hs : t.isSignificant = true) (hrange : n.range.contains t.range = true) : i ∈ n.elements.tokens := by
  obtain ⟨a, k, htokens, reach, hspans, -, heq⟩ := h.placed.1.reach
  obtain ⟨first, hgetFirst, hsigFirst, hstart⟩ := hspans.first
  obtain ⟨last, hgetLast, hsigLast, hstop⟩ := hspans.last
  have hne := (h.ordered.inside_of_getElem? ht hs).nonempty
  have hcontains : reach.range.start ≤ t.range.start ∧ t.range.stop ≤ reach.range.stop := by
    rw [show n.range = _ from heq] at hrange
    simpa [Span.contains] using hrange
  have hfirst : reach.first ≤ i := by
    by_contra hlt
    have := h.ordered.lt (Nat.lt_of_not_le hlt) ht hgetFirst hs hsigFirst
    omega
  have hlast : i ≤ reach.last := by
    by_contra hlt
    have := h.ordered.lt (Nat.lt_of_not_le hlt) hgetLast ht hsigLast hs
    omega
  have hbounds := hspans.bounds
  rw [show n.elements.tokens = _ from htokens, List.mem_range'_1]
  omega

/-- What stands in the tokens of a node stands in its range. -/
theorem Sound.mem_sourceOnly (h : n.Sound tree) : r ∈ n.sourceOnly tree ↔
    r ∈ tree.sourceOnly ∧ n.range.start ≤ r.start ∧ r.stop ≤ n.range.stop := by
  constructor
  · rintro ⟨i, hi, t, ht, hs, rfl⟩
    obtain ⟨hstart, hlt, hstop⟩ := h.within_of_mem hi ht (Token.isSignificant_of_isSourceOnly hs)
    exact ⟨⟨⟨i, t, ht, hs, rfl⟩, hlt⟩, hstart, hstop⟩
  · rintro ⟨⟨⟨i, t, ht, hs, rfl⟩, -⟩, hrange⟩
    refine ⟨i, h.mem_of_within ht (Token.isSignificant_of_isSourceOnly hs) ?_, t, ht, hs, rfl⟩
    simpa [Span.contains] using hrange

end Node

/-! ## In a text -/

section Text

variable {text : List Char} {i : Nat} {t : Token} (ht : (Lexed.ofText text).tokens[i]? = some t)
  (hs : t.isSignificant = true)
include ht hs

/-- Code stands in front of the end mark. -/
theorem Lexed.lt_of_isSignificant : i < (Lexed.ofText text).tokens.length - 1 := by
  have hlast := Lexed.getLast?_ofText text
  obtain ⟨hlt, -⟩ := List.getElem?_eq_some_iff.1 ht
  by_contra hle
  rw [List.getLast?_eq_getElem?, show (Lexed.ofText text).tokens.length - 1 = i by omega, ht] at hlast
  cases hlast
  cases hs

/-- The tree of a text with code is not blank. -/
theorem Parse.not_blank : ¬ (Parse.ofText text).tree.Blank := by
  intro hblank
  obtain ⟨f, hf⟩ := Parse.exists_block text
  obtain ⟨-, -, hroot⟩ := hf.tree_eq
  have hordered := Reach.ordered_ofText text
  have hspans := Reach.ofTokens_range' hordered 0 ((Lexed.ofText text).tokens.length - 1)
  rw [← hf.tokens, ← f.label_reach 2 0] at hspans
  cases hreach : (f.label (Lexed.ofText text).tokens 2 0).reach with
  | none =>
    rw [hreach] at hspans
    have hnone := hspans i (Nat.zero_le i) (by have := Lexed.lt_of_isSignificant ht hs; omega)
    rw [Reach.ofToken_eq_some.2 ⟨t, ht, hs, rfl⟩] at hnone
    cases hnone
  | some r =>
    rw [hreach] at hspans
    have hlt := (hspans.inside hordered).nonempty
    simp only [Node.toForest, Forest.label, Forest.node.injEq, hreach, Reach.join_none] at hroot
    have hrange := hblank.range
    rw [hroot.1] at hrange
    rw [show r.range = .empty 0 from hrange] at hlt
    exact Nat.lt_irrefl _ hlt

/-- The tree of a text holds all its code. -/
theorem Parse.mem_tokens : i ∈ (Parse.ofText text).tree.root.elements.tokens := by
  obtain ⟨f, hf⟩ := Parse.exists_block text
  have htokens := congrArg Forest.tokens hf.tree_eq.2.2
  rw [Forest.label_tokens] at htokens
  simp only [Node.toForest, Forest.tokens, List.append_nil, hf.tokens] at htokens
  rw [htokens, List.mem_range'_1]
  exact ⟨Nat.zero_le i, by have := Lexed.lt_of_isSignificant ht hs; omega⟩

end Text

end Respell
