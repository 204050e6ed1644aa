import Respell.Tree.Parse
import Respell.Proofs.Grammar.Rules
import Respell.Proofs.Lexing.Layout
import Respell.Proofs.Tree.Geometry

/-!
The tree of a text without faults.

Its root is a program around one block.  Either there is code, and then the root is sound: every row is one
of the grammar, every node is in its place and no number occurs twice.  Or there is none, and the block has
no nodes.
-/

namespace Respell

open List Syntax

variable {text : List Char} {tokens : List Token}

/-- Code follows every opening of a block in the tokens of a text. -/
theorem opens_ofText (text : List Char) : Grammar.Opens (Lexed.ofText text).tokens := by
  intro i hi
  unfold kindAt at hi
  cases ht : (Lexed.ofText text).tokens[i]? with
  | none => simp [ht] at hi
  | some t =>
    obtain ⟨u, hu, hs⟩ := Lexed.closed_ofText ht (by simpa [ht] using hi)
    simpa [kindAt, hu, Token.isSignificant] using hs

/-- The tokens of a text are such that the grammar reads them to the end. -/
theorem regular_ofText (text : List Char) : Grammar.Regular (Lexed.ofText text).tokens where
  opens := opens_ofText text
  nonempty := length_pos_iff.1 (Lexed.length_pos text)
  eof_iff i hi := by
    have h := Lexed.eof_iff (getElem?_eq_getElem hi)
    rw [kindAt, getElem?_eq_getElem hi]
    simp only [Option.map_some, Option.getD_some, h]
    omega
  first h := by
    have hlt := Lexed.length_pos text
    rw [kindAt, getElem?_eq_getElem hlt] at h ⊢
    exact Lexed.eof_of_layout (getElem?_eq_getElem hlt) (by simpa [Token.isSignificant] using h)

variable {f : Forest Kind}

theorem Forest.mem_tokens_of_mem_events {i : Nat} (h : .token i ∈ f.events) : i ∈ f.tokens := by
  induction f with
  | nil => cases h
  | token j rest ih =>
    rcases mem_cons.1 h with h | h
    · cases h
      exact mem_cons_self
    · exact mem_cons_of_mem _ (ih h)
  | node k inside rest ihInside ih =>
    simp only [events, mem_cons, mem_append, reduceCtorEq, false_or] at h
    exact mem_append.2 (h.imp ihInside ih)

/-- The tree that the events of a forest describe. -/
theorem Tree.ofEvents?_events {comments : List Comment} (h : ∀ i ∈ f.tokens, i < tokens.length) :
    Tree.ofEvents? text tokens comments f.events =
      (f.label tokens 0 0).forest.nodes.getLast?.map fun root => ⟨text, tokens, comments, root⟩ := by
  rw [Tree.ofEvents?, if_pos, Forest.ofEvents_events]
  rw [all_eq_true]
  intro e he
  cases e with
  | token i => exact decide_eq_true (h i (Forest.mem_tokens_of_mem_events he))
  | start k => rfl
  | finish => rfl

/-- A program around the elements of a block. -/
abbrev Parse.program (f : Forest Kind) : Forest Kind := .node .program (.node .block f .nil) .nil

/-- What the grammar reads from a text: the block of all its tokens before the end mark. -/
structure Parse.Block (text : List Char) (f : Forest Kind) : Prop where
  events : (Grammar.program text (Lexed.ofText text).tokens).1 = (Parse.program f).events
  tokens : f.tokens = List.range' 0 ((Lexed.ofText text).tokens.length - 1)
  codeFirst : f.CodeFirst (kindAt (Lexed.ofText text).tokens)
  anchored : f.Anchored (kindAt (Lexed.ofText text).tokens)
  reported : Grammar.Reported (Lexed.ofText text).tokens ((Lexed.ofText text).tokens.length - 1)
    (Parse.ofText text).errors.reverse
  grammatical : (Parse.ofText text).errors = [] →
    f.Grammatical (kindAt (Lexed.ofText text).tokens) id ∧
      Grammar.row (Lexed.ofText text).tokens f ∈ items

theorem Parse.exists_block (text : List Char) : ∃ f, Parse.Block text f := by
  obtain ⟨f, he, ht, hfirst, hanchored, hreported, hf⟩ := Grammar.program_eq (regular_ofText text) text
  exact ⟨f, he, ht, hfirst, hanchored, hreported, hf⟩

theorem Parse.Block.ofEvents?_eq (h : Parse.Block text f) :
    Tree.ofEvents? text (Lexed.ofText text).tokens (Lexed.ofText text).comments
        (Grammar.program text (Lexed.ofText text).tokens).1 =
      ((Parse.program f).label (Lexed.ofText text).tokens 0 0).forest.nodes.getLast?.map fun root =>
        ⟨text, (Lexed.ofText text).tokens, (Lexed.ofText text).comments, root⟩ := by
  rw [h.events, Tree.ofEvents?_events]
  simp only [Forest.tokens, append_nil, h.tokens, mem_range'_1]
  omega

/-- The events of a text make a tree, the one that the parser answers with. -/
theorem Parse.Block.ofEvents?_eq_some (h : Parse.Block text f) :
    Tree.ofEvents? text (Lexed.ofText text).tokens (Lexed.ofText text).comments
      (Grammar.program text (Lexed.ofText text).tokens).1 = some (Parse.ofText text).tree := by
  simp only [Parse.ofText, h.ofEvents?_eq, Forest.label, Forest.nodes, getLast?_singleton,
    Option.map_some, Option.getD_some]

/-- The tree of a text is labelled from a program around its block. -/
theorem Parse.Block.tree_eq (h : Parse.Block text f) :
    (Parse.ofText text).tree.text = text ∧
      (Parse.ofText text).tree.tokens = (Lexed.ofText text).tokens ∧
      (Parse.ofText text).tree.root.toForest = ((Parse.program f).label (Lexed.ofText text).tokens 0 0).forest := by
  have htree := h.ofEvents?_eq.symm.trans h.ofEvents?_eq_some
  rw [← Option.some.inj htree]
  exact ⟨rfl, rfl, rfl⟩

/-- A tree is a program around a block. -/
theorem Parse.root_ofText (text : List Char) : (Parse.ofText text).tree.root.kind = .program ∧
    ∃ block, (Parse.ofText text).tree.root.children = [block] ∧ block.kind = .block := by
  obtain ⟨f, hf⟩ := Parse.exists_block text
  obtain ⟨-, -, hroot⟩ := hf.tree_eq
  generalize (Parse.ofText text).tree.root = root at hroot
  obtain ⟨l, elements⟩ := root
  simp only [Node.toForest, Forest.label, Forest.node.injEq, and_true] at hroot
  obtain ⟨rfl, rfl⟩ := hroot
  exact ⟨rfl, _, rfl, rfl⟩

namespace Tree

/-- A program without code. -/
structure Blank (tree : Tree) : Prop where
  range : tree.root.range = .empty 0
  kind : tree.root.kind = .program
  block : ∃ block : Node, tree.root.children = [block] ∧ block.kind = .block ∧
    block.range = .empty 0 ∧ block.children = []

end Tree

/-- A forest without code has no nodes and no significant tokens. -/
theorem Forest.eq_nil_of_not_filled (h : f.symbols (kindAt tokens) id ∉ filled) (next lastEnd : Nat) :
    (f.label tokens next lastEnd).forest.nodes = [] ∧ Reach.ofTokens tokens f.tokens = none := by
  induction f generalizing next lastEnd with
  | nil => exact ⟨rfl, rfl⟩
  | token i rest ih =>
    obtain ⟨hnodes, hrest⟩ := ih (fun ⟨s, hs, hsub⟩ => h ⟨s, mem_cons_of_mem _ hs, hsub⟩) next
      (lastEndAfter tokens i lastEnd)
    refine ⟨hnodes, Reach.join_eq_none.2 ⟨?_, hrest⟩⟩
    have hlayout : Symbol.isSubstantial (.token (kindAt tokens i)) ≠ true := fun hsub =>
      h ⟨_, mem_cons_self, hsub⟩
    cases hi : Reach.ofToken tokens i with
    | none => rfl
    | some r =>
      obtain ⟨t, ht, hts, _⟩ := Reach.ofToken_eq_some.1 hi
      simp [Symbol.isSubstantial, kindAt, ht, Token.isSignificant] at hlayout hts
      simp [hts] at hlayout
  | node k inside rest _ _ =>
    refine absurd ⟨_, mem_cons_self, ?_⟩ h
    unfold Symbol.ofNode
    split
    · split <;> rfl
    · rfl

theorem Parse.sound_ofText (h : (Parse.ofText text).errors = []) :
    (Parse.ofText text).tree.root.Sound (Parse.ofText text).tree ∨ (Parse.ofText text).tree.Blank := by
  obtain ⟨f, hf⟩ := Parse.exists_block text
  obtain ⟨hgr, hitems⟩ := hf.grammatical h
  obtain ⟨htext, htokens, hroot⟩ := hf.tree_eq
  have ht := hf.tokens
  generalize (Parse.ofText text).tree = tree at *
  generalize hts : (Lexed.ofText text).tokens = tokens at *
  have hkinds : tree.kindAt = kindAt tokens := by
    rw [← htokens]
    rfl
  by_cases hfilled : Grammar.row tokens f ∈ filled
  · left
    have hordered := Reach.ordered_ofText text
    rw [hts] at hordered
    have hF : (Forest.node .program (.node .block f .nil) .nil).Grammatical (kindAt tokens) id := by
      refine ⟨⟨.block, rfl, ?_⟩, ⟨⟨hitems, hfilled⟩, hgr, trivial⟩, trivial⟩
      simp only [Forest.symbols, id]
      rw [Symbol.ofNode_of_ne (by decide) (by decide)]
    refine ⟨by rwa [htext, htokens], ?_, ?_, ?_⟩
    · rw [hroot, hkinds, Forest.label_grammatical]
      exact hF
    · rw [hroot, htext, htokens]
      exact Forest.placed_label hordered hF (by simpa [Forest.tokens] using ht) 0 0
    · rw [hroot, (Forest.label_ids _ 0 0).2]
      exact nodup_range'
  · right
    obtain ⟨hnodes, hnone⟩ := Forest.eq_nil_of_not_filled hfilled 2 0
    have hreach : (f.label tokens 2 0).reach = none := (f.label_reach 2 0).trans hnone
    simp only [Node.toForest, Forest.label, Forest.node.injEq, hreach, Reach.join_none] at hroot
    obtain ⟨hlabel, helements, _⟩ := hroot
    refine ⟨by rw [hlabel]; rfl, by rw [hlabel], ?_⟩
    rw [Node.children, helements]
    exact ⟨_, rfl, rfl, rfl, hnodes⟩

end Respell
