import Respell.Proofs.Tree.Located
import Respell.Proofs.Tree.Shape
import Respell.Scope

/-!
Nodes around nodes.

The nodes around a node are found by its number, and they are those that it lies below
(`Tree.mem_ancestors_iff`).  Two nodes of a tree lie one below the other, or they stand apart
(`Node.Nested.below_or_apart`).  Where no construct starts with its body, a block starts behind every node
around it, so that no two statements start at the same place (`Node.Sound.statement_unique`).
-/

namespace Respell

open List

variable {tree : Tree} {n c d : Node}

/-! ## Nodes by their numbers -/

namespace Forest

variable {f : Forest Label}

theorem descendants_eq_flatMap (f : Forest Label) : f.descendants = f.nodes.flatMap Node.descendants := by
  induction f with
  | nil => rfl
  | token i rest ih => exact ih
  | node l inside rest _ ih => simp [descendants, nodes, ih, Node.descendants_eq]

/-- What lies below a node below lies below. -/
theorem descendants_trans (hc : c ∈ f.descendants) (hd : d ∈ c.descendants) : d ∈ f.descendants := by
  rw [descendants_eq_flatMap] at hc ⊢
  obtain ⟨e, he, hc⟩ := mem_flatMap.1 hc
  exact mem_flatMap.2 ⟨e, he, Node.descendants_trans hc hd⟩

theorem path?_eq_none {id : Nat} (h : id ∉ f.labels.map Label.id) : f.path? id = none := by
  induction f with
  | nil => rfl
  | token i rest ih => exact ih h
  | node l inside rest ihInside ih =>
    simp only [labels, map_cons, map_append, mem_cons, mem_append, not_or] at h
    rw [path?, if_neg (Ne.symm h.1), ihInside h.2.1]
    exact ih h.2.2

theorem mem_ids (hc : c ∈ f.descendants) : c.id ∈ f.labels.map Label.id := by
  rw [← descendants_toLabel, map_map]
  exact mem_map_of_mem (f := fun c : Node => c.id) hc

/-- The way to a node leads past all nodes around it, and ends there. -/
theorem path?_of_mem (hf : (f.labels.map Label.id).Nodup) (hc : c ∈ f.nodes) : f.path? c.id = some [c] := by
  induction f with
  | nil => cases hc
  | token i rest ih => exact ih hf hc
  | node l inside rest _ ih =>
    rw [labels, map_cons, map_append, nodup_cons, mem_append, nodup_append] at hf
    rcases mem_cons.1 hc with rfl | hc
    · rw [path?, if_pos rfl]
    · have hid : c.id ∈ rest.labels.map Label.id := mem_ids (mem_descendants hc c.self_mem_descendants)
      have hne : l.id ≠ c.id := fun h => hf.1 (Or.inr (h ▸ hid))
      rw [path?, if_neg hne, path?_eq_none fun h => hf.2.2.2 _ h _ hid rfl]
      exact ih hf.2.2.1 hc

theorem path?_child (hf : (f.labels.map Label.id).Nodup) (hn : n ∈ f.descendants) (hc : c ∈ n.children) :
    ∃ path, f.path? n.id = some path ∧ f.path? c.id = some (path ++ [c]) := by
  induction f with
  | nil => cases hn
  | token i rest ih => exact ih hf hn
  | node l inside rest ihInside ih =>
    rw [labels, map_cons, map_append, nodup_cons, mem_append, nodup_append] at hf
    simp only [descendants, mem_cons, mem_append] at hn
    have hstep {d : Node} (hd : d ∈ inside.descendants) {path : List Node}
        (h : inside.path? d.id = some path) :
        (node l inside rest).path? d.id = some (⟨l, inside⟩ :: path) := by
      have hne : l.id ≠ d.id := fun h => hf.1 (Or.inl (h ▸ mem_ids hd))
      rw [path?, if_neg hne, h]
    rcases hn with rfl | hn | hn
    · exact ⟨_, by rw [path?, if_pos rfl], hstep (Node.child_mem_descendants hc) (path?_of_mem hf.2.1 hc)⟩
    · obtain ⟨path, h1, h2⟩ := ihInside hf.2.1 hn
      exact ⟨_, hstep hn h1, hstep (descendants_trans hn (Node.mem_descendants_of_child hc)) h2⟩
    · obtain ⟨path, h1, h2⟩ := ih hf.2.2.1 hn
      have hrest {d : Node} (hd : d ∈ rest.descendants) : (node l inside rest).path? d.id = rest.path? d.id := by
        have hne : l.id ≠ d.id := fun h => hf.1 (Or.inr (h ▸ mem_ids hd))
        rw [path?, if_neg hne, path?_eq_none fun h => hf.2.2.2 _ h _ (mem_ids hd) rfl]
      exact ⟨path, (hrest hn).trans h1, (hrest (descendants_trans hn (Node.mem_descendants_of_child hc))).trans h2⟩

end Forest

namespace Node

/-- Two nodes with the same number are the same. -/
theorem eq_of_id (h : (n.toForest.labels.map Label.id).Nodup) (hc : c ∈ n.descendants) (hd : d ∈ n.descendants)
    (hid : c.id = d.id) : c = d := by
  rw [← Forest.descendants_toLabel, map_map] at h
  exact inj_on_of_nodup_map h hc hd hid

/-- No node lies below itself. -/
theorem not_mem_below (n : Node) : n ∉ n.elements.descendants := by
  induction n using descendants_induction with
  | step n ih => exact fun h => ih n h h

theorem exists_parent (hc : c ∈ n.descendants) : c = n ∨ ∃ p ∈ n.descendants, c ∈ p.children := by
  refine (forall_descendants (P := fun c => c ∈ n.descendants ∧ (c = n ∨ ∃ p ∈ n.descendants, c ∈ p.children)) ?_
    ⟨n.self_mem_descendants, Or.inl rfl⟩ c hc).2
  exact fun p hp c hc => ⟨descendants_child hp.1 hc, Or.inr ⟨p, hp.1, hc⟩⟩

theorem Sound.descendants_nodup (h : n.Sound tree) : n.descendants.Nodup := by
  have hids := h.ids
  rw [← Forest.descendants_toLabel, map_map] at hids
  exact hids.of_map _

theorem Sound.eq_of_id (h : n.Sound tree) (hc : c ∈ n.descendants) (hd : d ∈ n.descendants)
    (hid : c.id = d.id) : c = d := Node.eq_of_id h.ids hc hd hid

end Node

/-! ## Nodes around a node -/

namespace Tree

/-- No number occurs twice. -/
abbrev Numbered (tree : Tree) : Prop := (tree.root.toForest.labels.map Label.id).Nodup

section

variable (h : tree.Numbered)
include h

theorem exists_path (hn : n ∈ tree.root.descendants) : ∃ path, tree.path n.id = path ++ [n] := by
  have hstep : ∀ n : Node, (n ∈ tree.root.descendants ∧ ∃ path, tree.path n.id = path ++ [n]) →
      ∀ c ∈ n.children, c ∈ tree.root.descendants ∧ ∃ path, tree.path c.id = path ++ [c] := by
    rintro n ⟨hn, -⟩ c hc
    obtain ⟨path, -, hpath⟩ := Forest.path?_child h hn hc
    exact ⟨Node.descendants_child hn hc, path, by rw [Tree.path, hpath]; rfl⟩
  refine (Node.forall_descendants hstep ⟨tree.root.self_mem_descendants, [], ?_⟩ n hn).2
  rw [Tree.path, Forest.path?_of_mem h (mem_singleton_self _)]
  rfl

theorem node?_of_mem (hn : n ∈ tree.root.descendants) : tree.node? n.id = some n := by
  obtain ⟨path, hpath⟩ := exists_path h hn
  rw [Tree.node?, hpath, getLast?_concat]

theorem ancestors_root : tree.ancestors tree.root.id = [] := by
  rw [Tree.ancestors, Tree.path, Forest.path?_of_mem h (mem_singleton_self _)]
  rfl

/-- Around a child there are its parent and the nodes around that. -/
theorem ancestors_child (hn : n ∈ tree.root.descendants) (hc : c ∈ n.children) :
    tree.ancestors c.id = n :: tree.ancestors n.id := by
  obtain ⟨path, h1, h2⟩ := Forest.path?_child h hn hc
  obtain ⟨front, hfront⟩ := exists_path h hn
  have hpath : path = front ++ [n] := by
    rw [← hfront, Tree.path, h1]
    rfl
  rw [Tree.ancestors, Tree.ancestors, hfront, Tree.path, h2, Option.getD_some, dropLast_concat,
    dropLast_concat, hpath, reverse_append]
  rfl

/-- Around a node among the nodes around another one there are those behind it. -/
theorem ancestors_of_append {a : Node} {front back : List Node} (hn : n ∈ tree.root.descendants)
    (heq : tree.ancestors n.id = front ++ a :: back) : tree.ancestors a.id = back := by
  refine (Node.forall_descendants (P := fun n => n ∈ tree.root.descendants ∧ ∀ front, tree.ancestors n.id =
    front ++ a :: back → tree.ancestors a.id = back) ?_ ⟨tree.root.self_mem_descendants, ?_⟩ n hn).2 front heq
  · rintro n ⟨hn, ih⟩ c hc
    refine ⟨Node.descendants_child hn hc, fun front heq => ?_⟩
    rw [ancestors_child h hn hc] at heq
    cases front with
    | nil =>
      obtain ⟨rfl, rfl⟩ := List.cons.inj heq
      rfl
    | cons m front => exact ih front (List.cons.inj heq).2
  · intro front heq
    rw [ancestors_root h] at heq
    exact absurd heq.symm (append_ne_nil_of_right_ne_nil _ (cons_ne_nil _ _))

theorem parent_unique {m : Node} (hn : n ∈ tree.root.descendants) (hm : m ∈ tree.root.descendants)
    (hcn : c ∈ n.children) (hcm : c ∈ m.children) : n = m :=
  (List.cons.inj ((ancestors_child h hn hcn).symm.trans (ancestors_child h hm hcm))).1

/-- The nodes around a node are those that it lies below. -/
theorem mem_ancestors_iff {a : Node} (hc : c ∈ tree.root.descendants) :
    a ∈ tree.ancestors c.id ↔ a ∈ tree.root.descendants ∧ c ∈ a.elements.descendants := by
  constructor
  · refine (Node.forall_descendants (P := fun c => c ∈ tree.root.descendants ∧ ∀ a ∈ tree.ancestors c.id,
      a ∈ tree.root.descendants ∧ c ∈ a.elements.descendants) ?_ ⟨tree.root.self_mem_descendants, ?_⟩ c hc).2 a
    · rintro n ⟨hn, hall⟩ c hc
      refine ⟨Node.descendants_child hn hc, fun a ha => ?_⟩
      rw [ancestors_child h hn hc] at ha
      rcases mem_cons.1 ha with rfl | ha
      · exact ⟨hn, Node.child_mem_descendants hc⟩
      · obtain ⟨ha, hna⟩ := hall a ha
        exact ⟨ha, Forest.descendants_trans hna (Node.mem_descendants_of_child hc)⟩
    · rw [ancestors_root h]
      exact fun a ha => absurd ha not_mem_nil
  · rintro ⟨ha, hca⟩
    refine (Forest.forall_descendants (P := fun c => c ∈ tree.root.descendants ∧ a ∈ tree.ancestors c.id) ?_ ?_ c hca).2
    · rintro n ⟨hn, hna⟩ c hc
      refine ⟨Node.descendants_child hn hc, ?_⟩
      rw [ancestors_child h hn hc]
      exact mem_cons_of_mem _ hna
    · intro n hn
      refine ⟨Node.descendants_child ha hn, ?_⟩
      rw [ancestors_child h ha hn]
      exact mem_cons_self

/-- What a node stands in, its children stand in, unless it is a function. -/
theorem enclosing_child (hn : n ∈ tree.root.descendants) (hc : c ∈ n.children) :
    tree.enclosing c.id = if n.kind = .function then n.id else tree.enclosing n.id := by
  rw [Tree.enclosing, ancestors_child h hn hc, find?_cons]
  by_cases hk : n.kind = .function
  · simp [hk]
  · rw [if_neg hk, beq_false_of_ne hk]
    rfl

end

/-- Parentheses are no scope. -/
theorem enclosing_unwrapParens (h : tree.root.Sound tree) (hn : n ∈ tree.root.descendants) :
    tree.enclosing n.unwrapParens.id = tree.enclosing n.id := by
  refine Node.Sound.parens_induction (P := fun n => n ∈ tree.root.descendants →
    tree.enclosing n.unwrapParens.id = tree.enclosing n.id) ?_ ?_ n (h.descendant hn).1 hn
  · intro n _ hk _
    rw [Node.unwrapParens_of_ne hk]
  · intro n c _ hk hchildren _ hunwrap _ _ ih hn
    have hc : c ∈ n.children := by simp [hchildren]
    rw [hunwrap, ih (Node.descendants_child hn hc), enclosing_child h.ids hn hc, if_neg (by rw [hk]; decide)]

end Tree

/-! ## Nodes and their ranges -/

namespace Node

/-- In each node the children stand one behind the other, and all that lies below it lies in its range. -/
def Nested (n : Node) : Prop :=
  ∀ a ∈ n.descendants, (a.children.Pairwise fun c d => c.range.stop ≤ d.range.start) ∧
    ∀ c ∈ a.descendants, a.range.start ≤ c.range.start ∧ c.range.stop ≤ a.range.stop

theorem Sound.nested (h : n.Sound tree) : n.Nested := fun _ ha =>
  ⟨(h.descendant ha).1.children_apart.1, fun _ hc => ((h.descendant ha).1.descendant hc).2⟩

theorem nested_of_stands (h : ∀ a ∈ n.descendants, a.Stands tree) : n.Nested := by
  refine fun a ha => ⟨(h a ha).apart, fun c hc => ?_⟩
  refine (forall_descendants (P := fun c => c ∈ a.descendants ∧ a.range.start ≤ c.range.start ∧
    c.range.stop ≤ a.range.stop) ?_ ⟨a.self_mem_descendants, Nat.le_refl _, Nat.le_refl _⟩ c hc).2
  rintro d ⟨hd, hstart, hstop⟩ e he
  have hwithin := (h d (descendants_trans ha hd)).children e he
  exact ⟨descendants_child hd he, hstart.trans hwithin.start, hwithin.stop.trans hstop⟩

/-- Two nodes lie one below the other, or apart. -/
theorem Nested.below_or_apart (h : n.Nested) (hc : c ∈ n.descendants) (hd : d ∈ n.descendants) :
    d ∈ c.descendants ∨ c ∈ d.descendants ∨ c.range.stop ≤ d.range.start ∨ d.range.stop ≤ c.range.start := by
  induction n using descendants_induction with
  | step n ih =>
    rw [descendants_eq, Forest.descendants_eq_flatMap] at hc hd
    rcases mem_cons.1 hc with rfl | hc
    · left
      rwa [descendants_eq, Forest.descendants_eq_flatMap]
    rcases mem_cons.1 hd with rfl | hd
    · right; left
      rw [descendants_eq, Forest.descendants_eq_flatMap]
      exact mem_cons_of_mem _ hc
    obtain ⟨a, ha, hc⟩ := mem_flatMap.1 hc
    obtain ⟨b, hb, hd⟩ := mem_flatMap.1 hd
    have hapart : a = b ∨ a.range.stop ≤ b.range.start ∨ b.range.stop ≤ a.range.start := by
      obtain ⟨i, hi, rfl⟩ := getElem_of_mem ha
      obtain ⟨j, hj, rfl⟩ := getElem_of_mem hb
      have hpairwise := pairwise_iff_getElem.1 (h n n.self_mem_descendants).1
      rcases Nat.lt_trichotomy i j with hij | rfl | hji
      · exact Or.inr (Or.inl (hpairwise i j hi hj hij))
      · exact Or.inl rfl
      · exact Or.inr (Or.inr (hpairwise j i hj hi hji))
    have hca := (h a (mem_descendants_of_child ha)).2 c hc
    have hdb := (h b (mem_descendants_of_child hb)).2 d hd
    rcases hapart with rfl | hlt | hlt
    · exact ih a (child_mem_descendants ha) (fun e he => h e (descendants_trans (mem_descendants_of_child ha) he)) hc hd
    · omega
    · omega

/-- A block starts behind every node around it that does not start with a body. -/
theorem Sound.start_lt_of_block (h : n.Sound tree) (hs : n.Steady tree) (hc : c ∈ n.descendants)
    (hk : c.kind = .block) : n.range.start < c.range.start := by
  induction n using descendants_induction with
  | step n ih =>
    rw [descendants_eq, Forest.descendants_eq_flatMap] at hc
    rcases mem_cons.1 hc with rfl | hc
    · exact absurd hk hs.block
    obtain ⟨a, ha, hc⟩ := mem_flatMap.1 hc
    change a ∈ n.children at ha
    have hca := (h.child ha).descendant hc
    have hle := (h.children_apart.2 a ha).2.1
    rcases h.steady_cases hs with hlt | ⟨b, more, hchildren, hb, hlt⟩
    · have := hlt a ha
      omega
    · have ha' := ha
      rw [hchildren] at ha'
      rcases mem_cons.1 ha' with rfl | ha'
      · have := ih a (child_mem_descendants ha) (h.child ha) hb hc
        omega
      · have := hlt a ha'
        omega

/-- Statements that start at the same place are the same, if none starts with a body. -/
theorem Sound.statement_unique (h : tree.root.Sound tree)
    {b b' s s' : Node} (hb : b ∈ tree.root.descendants) (hb' : b' ∈ tree.root.descendants)
    (hk : b.kind = .block) (hk' : b'.kind = .block) (hs : s ∈ b.children) (hs' : s' ∈ b'.children)
    (hsteady : s.Steady tree) (hsteady' : s'.Steady tree) (heq : s.range.start = s'.range.start) : s = s' := by
  -- A statement below another one stands in a block that starts later.
  have hbelow {b s s' : Node} (hb : b ∈ tree.root.descendants) (hk : b.kind = .block) (hs : s ∈ b.children)
      (hs' : s' ∈ tree.root.descendants) (hsteady : s'.Steady tree) (heq : s.range.start = s'.range.start)
      (hd : s ∈ s'.descendants) : s = s' := by
    rw [descendants_eq] at hd
    rcases mem_cons.1 hd with heq | hd
    · exact heq
    · have hmemb := (tree.mem_ancestors_iff h.ids (descendants_child hb hs)).2 ⟨hs', hd⟩
      rw [tree.ancestors_child h.ids hb hs] at hmemb
      rcases mem_cons.1 hmemb with rfl | hmemb
      · exact absurd hk hsteady.block
      · have hin := ((tree.mem_ancestors_iff h.ids hb).1 hmemb).2
        have hlt := (h.descendant hs').1.start_lt_of_block hsteady (mem_descendants_of_elements hin) hk
        have hle := ((h.descendant hb).1.children_apart.2 s hs).2.1
        omega
  have hne := (h.descendant (descendants_child hb hs)).1.inside.nonempty
  have hne' := (h.descendant (descendants_child hb' hs')).1.inside.nonempty
  rcases h.nested.below_or_apart (descendants_child hb hs) (descendants_child hb' hs') with hd | hd | hd | hd
  · exact (hbelow hb' hk' hs' (descendants_child hb hs) hsteady heq.symm hd).symm
  · exact hbelow hb hk hs (descendants_child hb' hs') hsteady' heq hd
  · omega
  · omega

end Node

end Respell
