import Respell.Proofs.Scoping.Lexical

/-!
Names that stay in a block.

Whether all uses of a name lie in the block around it is decided by their ranges.  A name is never empty, since it is
one token, and nothing lies below it.  So a block that contains the range of a name is a node around it, also in a tree
with faults (`Parse.contains_iff`), and the answer is one about nodes (`Tree.isBlockLocal_ofText`).
-/

namespace Respell

open List

variable {tree : Tree} {n b d : Node} {text : List Char}

/-! ## Ranges -/

theorem Parse.range_of_ident (hd : d ∈ (Parse.ofText text).tree.root.descendants) (hk : d.kind = .ident) :
    d.range.start < d.range.stop := by
  obtain ⟨i, rest, hitems, hname⟩ := Parse.named_ofText hd hk
  obtain ⟨⟨a, hlocated⟩, -⟩ := Parse.exists_located hd
  cases hlocated.1 with
  | code r spans range _ =>
    change d.range = r.range at range
    rw [range]
    exact (spans.inside (Reach.ordered_ofText text)).nonempty
  | layout blank _ _ =>
    have hmem : i ∈ d.elements.tokens := by
      rw [Forest.tokens_eq_flatMap, show d.elements.items = _ from hitems]
      exact mem_cons_self
    rw [hlocated.2.1.tokens_eq, mem_range'_1] at hmem
    have hlayout := Reach.ofToken_eq_none.1 (blank i hmem.1 hmem.2)
    rw [hname] at hlayout
    cases hlayout

/-- A block contains the range of a name just if it is a node around it. -/
theorem Parse.contains_iff (hb : b ∈ (Parse.ofText text).tree.root.descendants) (hkb : b.kind = .block)
    (hd : d ∈ (Parse.ofText text).tree.root.descendants) (hkd : d.kind = .ident) :
    b.range.contains d.range = true ↔ d ∈ b.elements.descendants := by
  have hnested : (Parse.ofText text).tree.root.Nested := Node.nested_of_stands fun _ => Parse.stands_ofText
  have hne := Parse.range_of_ident hd hkd
  have hleaf : d.descendants = [d] := by
    have hchildren := (Parse.formed_tree text).leaf hd (by rw [hkd]; rfl)
    rw [Node.descendants_eq, Forest.descendants_eq_flatMap, show d.elements.nodes = [] from hchildren]
    rfl
  have hkinds : b ≠ d := by
    rintro rfl
    rw [hkb] at hkd
    cases hkd
  rw [Span.contains, Bool.and_eq_true, decide_eq_true_iff, decide_eq_true_iff]
  constructor
  · rintro ⟨hstart, hstop⟩
    rcases hnested.below_or_apart hb hd with hmem | hmem | hlt | hlt
    · rw [Node.descendants_eq] at hmem
      exact (mem_cons.1 hmem).resolve_left hkinds.symm
    · rw [hleaf] at hmem
      exact absurd (mem_singleton.1 hmem) hkinds
    · omega
    · omega
  · intro hmem
    exact (hnested b hb).2 d (Node.mem_descendants_of_elements hmem)

/-! ## Nodes around a name -/

namespace Tree

variable {around : List Node} {parent : Option Node}

/-- The innermost block around a node. -/
structure InnermostBlock (tree : Tree) (n b : Node) : Prop where
  mem : b ∈ tree.root.descendants
  kind : b.kind = .block
  around : n ∈ b.elements.descendants
  innermost : ∀ c ∈ b.elements.descendants, c.kind = .block → n ∉ c.elements.descendants

/-- The node is the body of a program or of a function. -/
def ScopeBody (tree : Tree) (b : Node) : Prop :=
  ∃ p ∈ tree.root.descendants, b ∈ p.children ∧ (p.kind = .program ∨ p.kind = .function)

theorem nearestBlock?_eq_none (h : nearestBlock? around = none) : ∀ a ∈ around, a.kind ≠ .block := by
  fun_induction nearestBlock? around with
  | case1 => exact forall_mem_nil _
  | case2 => cases h
  | case3 a around hk ih => exact forall_mem_cons.2 ⟨hk, ih h⟩

theorem nearestBlock?_eq_some (h : nearestBlock? around = some (b, parent)) :
    ∃ front back, around = front ++ b :: back ∧ (∀ a ∈ front, a.kind ≠ .block) ∧ b.kind = .block ∧
      parent = back.head? := by
  fun_induction nearestBlock? around with
  | case1 => cases h
  | case2 a around hk =>
    cases h
    exact ⟨[], around, rfl, forall_mem_nil _, hk, rfl⟩
  | case3 a around hk ih =>
    obtain ⟨front, back, rfl, hfront, hrest⟩ := ih h
    exact ⟨a :: front, back, rfl, forall_mem_cons.2 ⟨hk, hfront⟩, hrest⟩

/-- The block that is found is the innermost one, and what comes with it is its parent. -/
theorem innermostBlock_iff (h : tree.Numbered) (hn : n ∈ tree.root.descendants)
    (hfound : nearestBlock? (tree.ancestors n.id) = some (b, parent)) :
    (∀ c, tree.InnermostBlock n c ↔ c = b) ∧ parent = (tree.ancestors b.id).head? := by
  obtain ⟨front, back, heq, hfront, hk, rfl⟩ := nearestBlock?_eq_some hfound
  have hback := ancestors_of_append h hn heq
  obtain ⟨hb, hnb⟩ : b ∈ tree.root.descendants ∧ n ∈ b.elements.descendants := by
    rw [← mem_ancestors_iff h hn, heq]
    exact mem_append_right _ mem_cons_self
  -- A block around the node is this one, or it is around this one.
  have haround {a : Node} (ha : a ∈ tree.root.descendants) (hna : n ∈ a.elements.descendants) (hka : a.kind = .block) :
      a = b ∨ b ∈ a.elements.descendants := by
    have hmem := (mem_ancestors_iff h hn).2 ⟨ha, hna⟩
    rw [heq] at hmem
    rcases mem_append.1 hmem with hmem | hmem
    · exact absurd hka (hfront a hmem)
    · exact (mem_cons.1 hmem).imp_right fun hmem => ((mem_ancestors_iff h hb).1 (hback ▸ hmem)).2
  refine ⟨fun c => ⟨fun hc => ?_, ?_⟩, by rw [hback]⟩
  · exact (haround hc.mem hc.around hc.kind).resolve_right fun hbc => hc.innermost b hbc hk hnb
  · rintro rfl
    refine ⟨hb, hk, hnb, fun a ha hka hna => ?_⟩
    rcases haround (Node.descendants_trans hb (Node.mem_descendants_of_elements ha)) hna hka with rfl | hca
    · exact a.not_mem_below ha
    · exact c.not_mem_below (Forest.descendants_trans ha (Node.mem_descendants_of_elements hca))

theorem Formed.isScopeBody_iff (h : tree.Formed) (hb : b ∈ tree.root.descendants) (hk : b.kind = .block) :
    isScopeBody (tree.ancestors b.id).head? = true ↔ tree.ScopeBody b := by
  obtain ⟨p, hp, hbp⟩ : ∃ p ∈ tree.root.descendants, b ∈ p.children := by
    refine (Node.exists_parent hb).resolve_left ?_
    rintro rfl
    rw [h.root] at hk
    cases hk
  rw [ancestors_child h.numbered hp hbp, head?_cons, isScopeBody, Bool.or_eq_true, beq_iff_eq, beq_iff_eq]
  constructor
  · exact fun hkind => ⟨p, hp, hbp, hkind⟩
  · rintro ⟨q, hq, hbq, hkind⟩
    rwa [parent_unique h.numbered hp hq hbp hbq]

/-- A scope is that of a node. -/
theorem exists_owner (h : tree.Numbered) (hn : n ∈ tree.root.descendants) :
    ∃ owner ∈ tree.root.descendants, owner.id = tree.enclosing n.id := by
  unfold enclosing
  cases hfound : (tree.ancestors n.id).find? fun a => a.kind == .function with
  | none => exact ⟨_, tree.root.self_mem_descendants, rfl⟩
  | some f => exact ⟨f, ((mem_ancestors_iff h hn).1 (mem_of_find?_eq_some hfound)).1, rfl⟩

/-- A name is local to a block if there is no block around it, if the innermost one is the body of a scope, or if all
names with its text in its scope lie below that block. -/
theorem isBlockLocal_ofText (text : List Char) :
    let tree := (Parse.ofText text).tree
    ∀ n ∈ tree.root.descendants, n.kind = .ident →
      ∃ owner ∈ tree.root.descendants, owner.id = tree.enclosing n.id ∧
        (tree.isBlockLocal n = true ↔ (∀ b, ¬ tree.InnermostBlock n b) ∨
          ∃ b, tree.InnermostBlock n b ∧ (tree.ScopeBody b ∨
            ∀ d ∈ owner.descendants, d.kind = .ident → tree.nodeText d = tree.nodeText n →
              d ∈ b.elements.descendants)) := by
  intro tree n hn hk
  have hformed : tree.Formed := Parse.formed_tree text
  obtain ⟨owner, howner, hid⟩ := exists_owner hformed.numbered hn
  refine ⟨owner, howner, hid, ?_⟩
  unfold isBlockLocal
  cases hfound : nearestBlock? (tree.ancestors n.id) with
  | none =>
    have hnone (b : Node) : ¬ tree.InnermostBlock n b := fun hb =>
      nearestBlock?_eq_none hfound b ((mem_ancestors_iff hformed.numbered hn).2 ⟨hb.mem, hb.around⟩) hb.kind
    exact iff_of_true rfl (Or.inl hnone)
  | some found =>
    obtain ⟨b, parent⟩ := found
    obtain ⟨hinnermost, rfl⟩ := innermostBlock_iff hformed.numbered hn hfound
    have hb := (hinnermost b).2 rfl
    have hscope : (tree.node? (tree.enclosing n.id)).getD tree.root = owner := by
      rw [← hid, node?_of_mem hformed.numbered howner]
      rfl
    rw [or_iff_right fun hnone => hnone b hb]
    simp only [hinnermost, exists_eq_left, Bool.or_eq_true, hformed.isScopeBody_iff hb.mem hb.kind, hscope, all_eq_true]
    refine or_congr_right (forall₂_congr fun d hd => ?_)
    by_cases hkd : d.kind = .ident
    · rw [← Parse.contains_iff hb.mem hb.kind (Node.descendants_trans howner hd) hkd]
      simp [hkd, ← imp_iff_not_or]
    · simp [hkd]

/-- A name that is used behind the block around it is not local to that block. -/
theorem isBlockLocal_ofText_outside :
    let tree := (Parse.ofText "if a\n  x = 1\nx\n".toList).tree
    ∃ n ∈ tree.root.descendants, n.kind = .ident ∧ tree.isBlockLocal n = false ∧
      ∃ b, tree.InnermostBlock n b ∧ ¬ tree.ScopeBody b ∧
        ∃ d ∈ tree.root.descendants, d.kind = .ident ∧ tree.nodeText d = tree.nodeText n ∧
          d ∉ b.elements.descendants := by
  intro tree
  obtain ⟨n, hn, hk, hlocal⟩ : ∃ n ∈ tree.root.descendants, n.kind = .ident ∧ tree.isBlockLocal n = false := by
    decide +kernel
  refine ⟨n, hn, hk, hlocal, ?_⟩
  obtain ⟨owner, howner, -, hiff⟩ := isBlockLocal_ofText _ n hn hk
  have hnot := (not_congr hiff).1 (Bool.eq_false_iff.1 hlocal)
  simp only [not_or, not_exists, not_and, not_forall, not_not] at hnot
  obtain ⟨⟨b, hb⟩, hall⟩ := hnot
  obtain ⟨hbody, d, hd, hkd, htext, hmem⟩ := hall b hb
  exact ⟨b, hb, hbody, d, Node.descendants_trans howner hd, hkd, htext, hmem⟩

end Tree

end Respell
