import Respell.Proofs.Tree.Geometry

/-!
The direct elements of a node, and what the grammar says of them.

The row, the ranges and the tokens of a node come from its elements one by one, so that a list of elements
whose row lies in a language `l * m` is a list for `l` followed by one for `m`.
-/

namespace Respell

open List Syntax
open scoped Computability

variable {items rest : List Item} {i : Nat}

def Node.symbol (tree : Tree) (n : Node) : Symbol :=
  .ofNode n.kind (n.elements.symbols tree.kindAt Label.kind)

theorem Node.symbol_eq (tree : Tree) (n : Node) : n.symbol tree = .node n.kind ∨ n.symbol tree = .trailing n.kind := by
  unfold Node.symbol Symbol.ofNode
  split
  · split
    · exact Or.inr rfl
    · exact Or.inl rfl
  · exact Or.inl rfl

theorem Node.kind_symbol (tree : Tree) (n : Node) : (n.symbol tree).kind = n.kind := by
  rcases n.symbol_eq tree with h | h <;> rw [h] <;> rfl

namespace Item

def symbol (tree : Tree) : Item → Symbol
  | token i => .token (tree.kindAt i)
  | node n => n.symbol tree

/-- The range of an element, if it has code. -/
def ranges (tokens : List Token) : Item → List Span
  | token i => ((Reach.ofToken tokens i).map Reach.range).toList
  | node n => [n.range]

/-- All tokens of an element. -/
def tokens : Item → List Nat
  | token i => [i]
  | node n => n.elements.tokens

def node? : Item → Option Node
  | token _ => none
  | node n => some n

def token? : Item → Option Nat
  | token i => some i
  | node _ => none

end Item

namespace Forest

variable {tree : Tree}

theorem symbols_eq_map (f : Forest Label) : f.symbols tree.kindAt Label.kind = f.items.map (Item.symbol tree) := by
  induction f with
  | nil => rfl
  | token i rest ih => simp [symbols, items, Item.symbol, ih]
  | node l inside rest _ ih => simp [symbols, items, Item.symbol, Node.symbol, ih]

theorem ranges_eq_flatMap (tokens : List Token) (f : Forest Label) :
    f.ranges tokens = f.items.flatMap (Item.ranges tokens) := by
  induction f with
  | nil => rfl
  | token i rest ih => simp [ranges, items, Item.ranges, ih]
  | node l inside rest _ ih => simp [ranges, items, Item.ranges, ih]

theorem tokens_eq_flatMap (f : Forest Label) : f.tokens = f.items.flatMap Item.tokens := by
  induction f with
  | nil => rfl
  | token i rest ih => simp [Forest.tokens, items, Item.tokens, ih]
  | node l inside rest _ ih => simp [Forest.tokens, items, Item.tokens, ih]

theorem nodes_eq_filterMap (f : Forest Label) : f.nodes = f.items.filterMap Item.node? := by
  induction f with
  | nil => rfl
  | token i rest ih => exact ih.trans (filterMap_cons_none rfl).symm
  | node l inside rest _ ih => simp [nodes, items, Item.node?, ih]

theorem ownTokens_eq_filterMap (f : Forest Label) : f.ownTokens = f.items.filterMap Item.token? := by
  induction f with
  | nil => rfl
  | token i rest ih => exact congrArg (i :: ·) ih
  | node l inside rest _ ih => exact ih

end Forest

variable {n c : Node}

theorem Node.mem_children : c ∈ n.children ↔ .node c ∈ n.items := by
  rw [Node.children, Forest.nodes_eq_filterMap, mem_filterMap]
  constructor
  · rintro ⟨item, hitem, h⟩
    cases item with
    | token i => cases h
    | node d => cases h; exact hitem
  · exact fun h => ⟨.node c, h, rfl⟩

theorem Node.children_eq (h : n.items = items) : n.children = items.filterMap Item.node? := by
  rw [← h]
  exact n.elements.nodes_eq_filterMap

theorem Node.ownTokens_eq (h : n.items = items) : n.ownTokens = items.filterMap Item.token? := by
  rw [← h]
  exact n.elements.ownTokens_eq_filterMap

theorem Node.mem_ownTokens : i ∈ n.ownTokens ↔ .token i ∈ n.items := by
  rw [Node.ownTokens_eq rfl, mem_filterMap]
  constructor
  · rintro ⟨item, hitem, h⟩
    cases item with
    | token j => cases h; exact hitem
    | node d => cases h
  · exact fun h => ⟨.token i, h, rfl⟩

/-! ## Nodes below a node -/

variable {f : Forest Label}

/-- What goes from a node to its children holds below every node it holds of. -/
theorem Forest.forall_descendants {P : Node → Prop} (step : ∀ n, P n → ∀ c ∈ n.children, P c) (h : ∀ n ∈ f.nodes, P n) :
    ∀ m ∈ f.descendants, P m := by
  induction f with
  | nil =>
    intro m hm
    cases hm
  | token i rest ih => exact ih h
  | node l inside rest ihInside ih =>
    intro m hm
    have hhead : P ⟨l, inside⟩ := h _ mem_cons_self
    simp only [descendants, mem_cons, mem_append] at hm
    rcases hm with rfl | hm | hm
    · exact hhead
    · exact ihInside (step _ hhead) m hm
    · exact ih (fun n hn => h n (mem_cons_of_mem _ hn)) m hm

theorem Forest.mem_descendants {d : Node} (hc : c ∈ f.nodes) (hd : d ∈ c.descendants) : d ∈ f.descendants := by
  induction f with
  | nil => cases hc
  | token i rest ih => exact ih hc
  | node l inside rest _ ih =>
    rw [descendants, ← cons_append]
    rcases mem_cons.1 hc with rfl | hc
    · rw [Node.descendants, Node.toForest, descendants, descendants, List.append_nil] at hd
      exact mem_append_left _ hd
    · exact mem_append_right _ (ih hc)

namespace Node

variable {n c d : Node}

theorem descendants_eq (n : Node) : n.descendants = n :: n.elements.descendants := by
  rw [Node.descendants, toForest, Forest.descendants, Forest.descendants, List.append_nil]

theorem self_mem_descendants (n : Node) : n ∈ n.descendants := by
  rw [descendants_eq]
  exact mem_cons_self

theorem child_mem_descendants (hc : c ∈ n.children) : c ∈ n.elements.descendants :=
  Forest.mem_descendants hc c.self_mem_descendants

theorem mem_descendants_of_elements (h : c ∈ n.elements.descendants) : c ∈ n.descendants := by
  rw [descendants_eq]
  exact mem_cons_of_mem _ h

variable {P : Node → Prop}

theorem forall_descendants (step : ∀ n, P n → ∀ c ∈ n.children, P c) (h : P n) : ∀ m ∈ n.descendants, P m := by
  apply Forest.forall_descendants step
  intro m hm
  rw [mem_singleton.1 hm]
  exact h

/-- What holds of a node once it holds of all nodes below holds of every node. -/
theorem descendants_induction (step : ∀ n : Node, (∀ c ∈ n.elements.descendants, P c) → P n) (n : Node) : P n := by
  have hall (f : Forest Label) : ∀ c ∈ f.descendants, P c := by
    induction f with
    | nil =>
      intro c hc
      cases hc
    | token i rest ih => exact ih
    | node l inside rest ihInside ih =>
      intro c hc
      simp only [Forest.descendants, mem_cons, mem_append] at hc
      rcases hc with rfl | hc | hc
      · exact step _ ihInside
      · exact ihInside c hc
      · exact ih c hc
  exact step n (hall n.elements)

theorem descendants_trans (hc : c ∈ n.descendants) (hd : d ∈ c.descendants) : d ∈ n.descendants := by
  have hall := forall_descendants (P := fun c => ∀ d ∈ c.descendants, d ∈ n.descendants) ?_ (fun _ h => h) c hc
  · exact hall d hd
  · intro c hc e he d hd
    exact hc d (mem_descendants_of_elements (Forest.mem_descendants he hd))

theorem mem_descendants_of_child (hc : c ∈ n.children) : c ∈ n.descendants :=
  mem_descendants_of_elements (child_mem_descendants hc)

theorem descendants_child (hc : c ∈ n.descendants) (hd : d ∈ c.children) : d ∈ n.descendants :=
  descendants_trans hc (mem_descendants_of_child hd)

end Node

/-! ## Rows of elements -/

/-- The row of the elements lies in the language. -/
def Rows (tree : Tree) (l : Language Symbol) (items : List Item) : Prop :=
  items.map (Item.symbol tree) ∈ l

namespace Rows

variable {tree : Tree} {l m : Language Symbol} {items : List Item}

theorem mul (h : Rows tree (l * m) items) : ∃ xs ys, items = xs ++ ys ∧ Rows tree l xs ∧ Rows tree m ys := by
  obtain ⟨x, hx, y, hy, hxy⟩ := Language.mem_mul.1 h
  obtain ⟨xs, ys, rfl, rfl, rfl⟩ := map_eq_append_iff.1 hxy.symm
  exact ⟨xs, ys, rfl, hx, hy⟩

theorem add (h : Rows tree (l + m) items) : Rows tree l items ∨ Rows tree m items :=
  (Language.mem_add l m _).1 h

theorem one (h : Rows tree 1 items) : items = [] := map_eq_nil_iff.1 ((Language.mem_one _).1 h)

theorem word {kinds : List Kind} (h : Rows tree (word kinds) items) :
    ∃ i, items = [.token i] ∧ tree.kindAt i ∈ kinds := by
  obtain ⟨k, hk, h⟩ := h
  obtain ⟨item, rfl, hitem⟩ := map_eq_singleton_iff.1 h
  cases item with
  | token i => cases hitem; exact ⟨i, rfl, hk⟩
  | node n => rcases n.symbol_eq tree with h | h <;> cases h.symm.trans hitem

theorem node {q : Kind → Bool} (h : Rows tree (node q) items) :
    ∃ n, items = [.node n] ∧ q n.kind = true ∧ n.symbol tree = .node n.kind := by
  obtain ⟨k, hk, h⟩ := h
  obtain ⟨item, rfl, hitem⟩ := map_eq_singleton_iff.1 h
  cases item with
  | token i => cases hitem
  | node n =>
    rcases n.symbol_eq tree with hsymbol | hsymbol
    · cases hsymbol.symm.trans hitem
      exact ⟨n, rfl, hk, hsymbol⟩
    · cases hsymbol.symm.trans hitem

end Rows

variable {tree : Tree}

theorem Node.Sound.rows (h : n.Sound tree) : Rows tree (production n.kind) n.items := by
  rw [Rows, Node.items, ← Forest.symbols_eq_map]
  exact h.row

theorem Tree.exists_token (h : (tree.kindAt i).isLayout = false) :
    ∃ t, tree.token? i = some t ∧ t.kind = tree.kindAt i ∧
      Reach.ofToken tree.tokens i = some ⟨i, i, t.range⟩ := by
  unfold Tree.kindAt at h ⊢
  cases ht : tree.token? i with
  | none => simp [ht, Kind.isLayout] at h
  | some t =>
    rw [ht] at h
    refine ⟨t, rfl, rfl, Reach.ofToken_eq_some.2 ⟨t, ht, ?_, rfl⟩⟩
    simpa [Token.isSignificant] using h

/-! ## Splitting a tiling -/

theorem Tiled.split {a b : Nat} {rs ss : List Span} (h : Tiled a b (rs ++ ss)) (hr : rs ≠ [])
    (hs : ss ≠ []) : ∃ c d, Tiled a c rs ∧ c ≤ d ∧ Tiled d b ss := by
  induction rs generalizing a with
  | nil => exact absurd rfl hr
  | cons r rs ih =>
    cases rs with
    | nil =>
      cases ss with
      | nil => exact absurd rfl hs
      | cons s more =>
        obtain ⟨rfl, hlt, hle, hmore⟩ := h
        exact ⟨r.stop, s.start, ⟨rfl, hlt, rfl⟩, hle, hmore⟩
    | cons s more =>
      obtain ⟨rfl, hlt, hle, hmore⟩ := h
      obtain ⟨c, d, h1, h2, h3⟩ := ih hmore (cons_ne_nil _ _)
      exact ⟨c, d, ⟨rfl, hlt, hle, h1⟩, h2, h3⟩

/-! ## Nodes that nothing is put in ahead of -/

/-- The node does not start with a body or a list of statements. -/
structure Node.Steady (tree : Tree) (n : Node) : Prop where
  symbol : n.symbol tree = .node n.kind
  block : n.kind ≠ .block
  program : n.kind ≠ .program

namespace Syntax

/-- A row may start so if nothing is put in ahead of it. -/
def isHead : Symbol → Bool
  | .token k => !k.isLayout
  | .node k => k != .block && k != .program
  | .trailing _ => false

def headed : Language Symbol := {row | ∃ s rest, row = s :: rest ∧ isHead s = true}

theorem word_le_headed {kinds : List Kind} (h : ∀ k ∈ kinds, k.isLayout = false) : word kinds ≤ headed := by
  rintro _ ⟨k, hk, rfl⟩
  exact ⟨.token k, [], rfl, by simp [isHead, h k hk]⟩

theorem node_le_headed {q : Kind → Bool} (hb : q .block = false) (hp : q .program = false) : node q ≤ headed := by
  rintro _ ⟨k, hk, rfl⟩
  refine ⟨.node k, [], rfl, ?_⟩
  simp only [isHead, Bool.and_eq_true, bne_iff_ne]
  exact ⟨fun h => by simp [h, hb] at hk, fun h => by simp [h, hp] at hk⟩

theorem mul_le_headed {l : Language Symbol} (h : l ≤ headed) (m : Language Symbol) : l * m ≤ headed := by
  rintro _ ⟨row, hrow, more, _, rfl⟩
  obtain ⟨s, rest, rfl, hs⟩ := h hrow
  exact ⟨s, rest ++ more, rfl, hs⟩

theorem add_le_headed {l m : Language Symbol} (hl : l ≤ headed) (hm : m ≤ headed) : l + m ≤ headed :=
  fun _ h => h.elim (hl ·) (hm ·)

theorem production_le_headed {k : Kind} (hb : k ≠ .block) (hp : k ≠ .program) (hf : k ≠ .forExpr)
    (hi : k ≠ .ifExpr) : production k ≤ headed := by
  unfold production
  split
  all_goals
    try unfold functionHead
    first
    | exact zero_le
    | contradiction
    | (apply_rules [add_le_headed, mul_le_headed, word_le_headed, node_le_headed]; all_goals decide)

end Syntax

theorem Tiled.head {a b : Nat} {r : Span} {rs : List Span} (h : Tiled a b (r :: rs)) :
    r.start = a ∧ r.start < r.stop := by
  cases rs with
  | nil => exact ⟨h.1, h.2.1⟩
  | cons s more => exact ⟨h.1, h.2.1⟩

/-- The children of a node lie in it, one behind the other. -/
theorem Node.Sound.children_apart (h : n.Sound tree) :
    (n.children.Pairwise fun c d => c.range.stop ≤ d.range.start) ∧
      ∀ c ∈ n.children, c.range.Inside tree.text ∧ n.range.start ≤ c.range.start ∧
        c.range.stop ≤ n.range.stop := by
  have hsub := @Forest.nodes_sublist_ranges tree.tokens n.elements
  refine ⟨pairwise_map.1 (h.tiled.pairwise.sublist hsub), fun c hc => ?_⟩
  obtain ⟨h1, -, h3⟩ := h.tiled.mem (hsub.subset (mem_map_of_mem hc))
  exact ⟨(h.child hc).inside, h1, h3⟩

/-- There is no program in a node. -/
theorem Node.Sound.ne_program (h : n.Sound tree) (hc : c ∈ n.elements.descendants) : c.kind ≠ .program := by
  have hchild : ∀ n : Node, n.Sound tree → ∀ c ∈ n.children, c.Sound tree ∧ c.kind ≠ .program := by
    intro n hn c hc
    refine ⟨hn.child hc, ?_⟩
    have hkind := production_le_inner n.kind hn.rows _ (mem_map_of_mem (Node.mem_children.1 hc))
    rwa [Item.symbol, Node.kind_symbol] at hkind
  have hall := Forest.forall_descendants (P := fun c => c.Sound tree ∧ c.kind ≠ .program)
    (fun n hn => hchild n hn.1) (hchild n h)
  exact (hall c hc).2

/-- What lies below a node is sound and lies in it. -/
theorem Node.Sound.descendant (h : n.Sound tree) (hc : c ∈ n.descendants) :
    c.Sound tree ∧ n.range.start ≤ c.range.start ∧ c.range.stop ≤ n.range.stop := by
  refine Node.forall_descendants (P := fun c =>
    c.Sound tree ∧ n.range.start ≤ c.range.start ∧ c.range.stop ≤ n.range.stop) ?_
    ⟨h, Nat.le_refl _, Nat.le_refl _⟩ c hc
  intro c hc d hd
  have := hc.1.children_apart.2 d hd
  exact ⟨hc.1.child hd, by omega, by omega⟩

/-- Elements behind a range start behind it. -/
theorem Tiled.lt_of_mem_tail {a b : Nat} {r : Span} {tokens : List Token}
    (h : Tiled a b (r :: rest.flatMap (Item.ranges tokens))) (hc : .node c ∈ rest) : a < c.range.start := by
  have hmem : c.range ∈ rest.flatMap (Item.ranges tokens) :=
    mem_flatMap.2 ⟨.node c, hc, mem_singleton_self _⟩
  have := (pairwise_cons.1 h.pairwise).1 _ hmem
  have := h.head
  omega

/-- Children behind a token start behind it. -/
theorem Node.Sound.start_lt_of_token (h : n.Sound tree) (hitems : n.items = .token i :: rest)
    (hi : (tree.kindAt i).isLayout = false) (hc : c ∈ n.children) : n.range.start < c.range.start := by
  obtain ⟨t, -, -, ht⟩ := tree.exists_token hi
  have htiled := h.tiled
  rw [Forest.ranges_eq_flatMap, ← Node.items, hitems, flatMap_cons,
    show Item.ranges tree.tokens (.token i) = [t.range] by simp [Item.ranges, ht]] at htiled
  rw [Node.mem_children, hitems] at hc
  exact htiled.lt_of_mem_tail (mem_of_ne_of_mem (by simp) hc)

/-- Of the children of a steady node at most the first starts where the node does, and it is steady. -/
theorem Node.Sound.steady_cases (h : n.Sound tree) (hs : n.Steady tree) :
    (∀ c ∈ n.children, n.range.start < c.range.start) ∨
      ∃ c more, n.children = c :: more ∧ c.Steady tree ∧ ∀ d ∈ more, n.range.start < d.range.start := by
  have hhead : Rows tree headed n.items := by
    have hrows := h.rows
    by_cases hf : n.kind = .forExpr
    · rw [hf, production] at hrows
      rcases hrows.add with hrows | hrows
      · rw [mul_assoc] at hrows
        exact mul_le_headed (word_le_headed (by decide)) _ hrows
      · rw [Rows, Node.items, ← Forest.symbols_eq_map, mul_assoc] at hrows
        cases hs.symbol.symm.trans (ofNode_of_block hrows (Or.inl hf))
    by_cases hi : n.kind = .ifExpr
    · rw [hi, production] at hrows
      rcases hrows.add with hrows | hrows
      · rw [mul_assoc, mul_assoc] at hrows
        exact mul_le_headed (word_le_headed (by decide)) _ hrows
      · rw [Rows, Node.items, ← Forest.symbols_eq_map, mul_assoc] at hrows
        cases hs.symbol.symm.trans (ofNode_of_block hrows (Or.inr hi))
    exact production_le_headed hs.block hs.program hf hi hrows
  have htiled := h.tiled
  rw [Forest.ranges_eq_flatMap] at htiled
  obtain ⟨s, rest, hrow, hshead⟩ := hhead
  obtain ⟨item, items, hitems, rfl, -⟩ := map_eq_cons_iff.1 hrow
  change n.elements.items = _ at hitems
  rw [hitems, flatMap_cons] at htiled
  cases item with
  | token i =>
    left
    exact fun c hc => h.start_lt_of_token hitems (by simpa [isHead, Item.symbol] using hshead) hc
  | node c =>
    right
    refine ⟨c, items.filterMap Item.node?, ?_, ?_, fun d hd => ?_⟩
    · rw [Node.children, Forest.nodes_eq_filterMap, hitems]
      exact filterMap_cons_some rfl
    · rcases c.symbol_eq tree with hc | hc
      · rw [Item.symbol, hc] at hshead
        simp only [isHead, Bool.and_eq_true, bne_iff_ne] at hshead
        exact ⟨hc, hshead.1, hshead.2⟩
      · rw [Item.symbol, hc] at hshead
        cases hshead
    · obtain ⟨item, hitem, h⟩ := mem_filterMap.1 hd
      cases item with
      | token i => cases h
      | node d' =>
        cases h
        exact htiled.lt_of_mem_tail hitem

end Respell
