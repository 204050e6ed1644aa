import Respell.Patch.Site
import Respell.Proofs.Tree.Items

/-!
Loops, conditionals and parentheses of a tree without faults.

The grammar gives the elements of such a node, the elements give its view, and the tiling gives the order
of the parts:

    loop       for first (, second)? in target (when filter)? then? body
               body for first (, second)? in target (when filter)?
    trailing   body if condition

The keyword of a node that starts with its body is the first of its kind between the body and any part
behind it, since all that stands between the last code of the body and the keyword is layout.
-/

namespace Respell

open List Syntax
open scoped Computability

variable {tree : Tree} {n : Node} {k : Kind} {i : Nat} {rest : List Item}

/-! ## Headers -/

/-- The header of a loop behind the keyword. -/
structure Header where
  first : Node
  /-- A comma and another binding. -/
  second : Option (Nat × Node)
  /-- The word between the bindings and the target. -/
  word : Nat
  target : Node
  /-- `when` and the filter. -/
  filter : Option (Nat × Node)

/-- A token and a node behind it. -/
def follow : Option (Nat × Node) → List Item
  | none => []
  | some (i, n) => [.token i, .node n]

namespace Header

def items (h : Header) : List Item :=
  [.node h.first] ++ follow h.second ++ [.token h.word] ++ [.node h.target] ++ follow h.filter

/-- The parts from left to right. -/
def nodes (h : Header) : List Node :=
  h.first :: (h.second.map Prod.snd).toList ++ h.target :: (h.filter.map Prod.snd).toList

structure Sound (tree : Tree) (h : Header) : Prop where
  first : isBinding h.first.kind = true ∧ h.first.symbol tree = .node h.first.kind
  second : ∀ i n, h.second = some (i, n) →
    tree.kindAt i = .comma ∧ isBinding n.kind = true ∧ n.symbol tree = .node n.kind
  word : tree.kindAt h.word = .inKw ∨ tree.kindAt h.word = .ofKw
  filter : ∀ i n, h.filter = some (i, n) → tree.kindAt i = .whenKw
  ne_block : ∀ c ∈ h.nodes, c.kind ≠ .block

end Header

theorem Rows.follow {q : Kind → Bool} {items : List Item} (h : Rows tree (1 + Syntax.word [k] * Syntax.node q) items) :
    ∃ o, items = follow o ∧
      ∀ i n, o = some (i, n) → tree.kindAt i = k ∧ q n.kind = true ∧ n.symbol tree = .node n.kind := by
  rcases h.add with h | h
  · exact ⟨none, h.one, fun _ _ h => by cases h⟩
  · obtain ⟨xs, ys, rfl, hx, hy⟩ := h.mul
    obtain ⟨i, rfl, hi⟩ := hx.word
    obtain ⟨n, rfl, hn⟩ := hy.node
    refine ⟨some (i, n), rfl, fun _ _ h => ?_⟩
    cases h
    exact ⟨mem_singleton.1 hi, hn⟩

theorem Rows.header {items : List Item} (h : Rows tree loopHeader items) :
    ∃ h : Header, items = h.items ∧ h.Sound tree := by
  obtain ⟨_, _, rfl, h, hfilter⟩ := h.mul
  obtain ⟨_, _, rfl, h, htarget⟩ := h.mul
  obtain ⟨_, _, rfl, h, hword⟩ := h.mul
  obtain ⟨_, _, rfl, hfirst, hsecond⟩ := h.mul
  obtain ⟨first, rfl, h1⟩ := hfirst.node
  obtain ⟨second, rfl, h2⟩ := hsecond.follow
  obtain ⟨word, rfl, h3⟩ := hword.word
  obtain ⟨target, rfl, htarget, -⟩ := htarget.node
  obtain ⟨filter, rfl, h4⟩ := hfilter.follow
  refine ⟨⟨first, second, word, target, filter⟩, rfl, h1, h2, by simpa using h3,
    fun i n h => (h4 i n h).1, fun c hc hk => ?_⟩
  simp only [Header.nodes, cons_append, mem_cons, mem_append, Option.mem_toList,
    Option.map_eq_some_iff, Prod.exists, exists_eq_right] at hc
  rcases hc with rfl | ⟨i, hc⟩ | rfl | ⟨i, hc⟩
  · rw [hk] at h1
    cases h1.1
  · have := (h2 i c hc).2.1
    rw [hk] at this
    cases this
  · rw [hk] at htarget
    cases htarget
  · have := (h4 i c hc).2.1
    rw [hk] at this
    cases this

/-- The body of a construct that starts with its keyword: `then` or nothing, and a block. -/
theorem Rows.body {items : List Item} (h : Rows tree Syntax.body items) :
    ∃ (thenToken : Option Nat) (b : Node), items = (thenToken.map Item.token).toList ++ [.node b] ∧
      b.kind = .block ∧ ∀ i, thenToken = some i → tree.kindAt i = .thenKw := by
  obtain ⟨_, _, rfl, hthen, hblock⟩ := h.mul
  obtain ⟨b, rfl, hb, -⟩ := hblock.node
  rcases hthen.add with hthen | hthen
  · obtain rfl := hthen.one
    exact ⟨none, b, rfl, beq_iff_eq.1 hb, fun _ h => by cases h⟩
  · obtain ⟨i, rfl, hi⟩ := hthen.word
    refine ⟨some i, b, rfl, beq_iff_eq.1 hb, fun _ h => ?_⟩
    cases h
    exact mem_singleton.1 hi

namespace Header

/-- The view of a loop with this header. -/
def view (tree : Tree) (h : Header) (keyword : Nat) (thenToken : Option Nat) (body : Node) : LoopView :=
  let isOf := tree.kindAt h.word == .ofKw
  { forToken := some keyword
    thenToken
    isOf
    key := if isOf then some h.first else h.second.map Prod.snd
    value := if isOf then h.second.map Prod.snd else some h.first
    target := some h.target
    filter := h.filter.map Prod.snd
    body := some body }

variable {h : Header}

/-- What has been seen of a loop once its header has passed. -/
theorem scan_items (hs : h.Sound tree) (keyword : Nat) (body : Option Node) :
    h.items.foldl (LoopView.Scan.item tree) { view := { forToken := some keyword, body } } =
      { view :=
          { forToken := some keyword
            isOf := tree.kindAt h.word == .ofKw
            target := some h.target
            filter := h.filter.map Prod.snd
            body }
        bindings := h.first :: (h.second.map Prod.snd).toList
        seenIn := true
        seenWhen := h.filter.isSome } := by
  obtain ⟨first, second, word, target, filter⟩ := h
  obtain ⟨-, hsecond, hword, hfilter, -⟩ := hs
  simp only at hsecond hword hfilter
  rcases second with _ | ⟨i, second⟩ <;> rcases filter with _ | ⟨j, filter⟩ <;>
    rcases hword with hword | hword <;>
    simp_all [items, follow, LoopView.Scan.item, LoopView.Scan.node, LoopView.Scan.token]

theorem finish_scan (h : Header) (keyword : Nat) (thenToken : Option Nat) (body : Node)
    (seenIn seenWhen : Bool) :
    LoopView.Scan.finish
      { view :=
          { forToken := some keyword
            thenToken
            isOf := tree.kindAt h.word == .ofKw
            target := some h.target
            filter := h.filter.map Prod.snd
            body := some body }
        bindings := h.first :: (h.second.map Prod.snd).toList
        seenIn
        seenWhen } = h.view tree keyword thenToken body := by
  obtain ⟨first, second, word, target, filter⟩ := h
  by_cases hw : tree.kindAt word = .ofKw <;> cases second <;> simp [LoopView.Scan.finish, view, hw]

theorem mem_nodes {c : Node} : c ∈ h.nodes ↔ .node c ∈ h.items := by
  obtain ⟨first, second, word, target, filter⟩ := h
  rcases second with _ | ⟨i, second⟩ <;> rcases filter with _ | ⟨j, filter⟩ <;> simp [nodes, items, follow]

theorem target_mem (h : Header) : h.target ∈ h.nodes := by simp [nodes]

section View

variable {h : Header} {keyword : Nat} {thenToken : Option Nat} {body c : Node}

theorem mem_of_key (hc : c ∈ (h.view tree keyword thenToken body).key) : c ∈ h.nodes := by
  simp only [view] at hc
  split at hc
  · cases hc
    simp [nodes]
  · simp [nodes, Option.mem_def.1 hc]

theorem mem_of_value (hc : c ∈ (h.view tree keyword thenToken body).value) : c ∈ h.nodes := by
  simp only [view] at hc
  split at hc
  · simp [nodes, Option.mem_def.1 hc]
  · cases hc
    simp [nodes]

theorem mem_of_filter (hc : c ∈ (h.view tree keyword thenToken body).filter) : c ∈ h.nodes := by
  simp [nodes, Option.mem_def.1 (show c ∈ h.filter.map Prod.snd from hc)]

/-- The bindings of a loop over properties come key first, those of a loop over elements value first. -/
theorem view_nodes (h : Header) (keyword : Nat) (thenToken : Option Nat) (body : Node) :
    (if (h.view tree keyword thenToken body).isOf then
        (h.view tree keyword thenToken body).key.toList ++ (h.view tree keyword thenToken body).value.toList
      else
        (h.view tree keyword thenToken body).value.toList ++ (h.view tree keyword thenToken body).key.toList) ++
      h.target :: (h.view tree keyword thenToken body).filter.toList = h.nodes := by
  unfold view nodes
  by_cases hw : (tree.kindAt h.word == .ofKw) = true <;> simp [hw]

/-- A binding starts with a name, a bracket or the like. -/
theorem steady_of_value (hs : h.Sound tree) (hc : c ∈ (h.view tree keyword thenToken body).value) :
    c.Steady tree ∧ c.kind ≠ .parenExpr := by
  have hbinding : isBinding c.kind = true ∧ c.symbol tree = .node c.kind := by
    simp only [view] at hc
    split at hc
    · obtain ⟨⟨i, n⟩, hn, rfl⟩ := Option.map_eq_some_iff.1 (Option.mem_def.1 hc)
      exact (hs.second i n hn).2
    · cases hc
      exact hs.first
  refine ⟨⟨hbinding.2, ?_, ?_⟩, ?_⟩ <;>
  · intro hk
    rw [hk] at hbinding
    cases hbinding.1

end View

/-- The parts of a header do not touch. -/
theorem inOrder (hs : h.Sound tree) {k a b : Nat} (ht : Tiled a b (h.items.flatMap (Item.ranges tree.tokens)))
    (hk : k < a) (hin : ∀ c ∈ h.nodes, c.range.Inside tree.text) :
    InOrder tree.text 1 k b (h.nodes.map fun c => c.range) := by
  obtain ⟨first, second, word, target, filter⟩ := h
  obtain ⟨-, hsecond, hword, hfilter, -⟩ := hs
  simp only at hsecond hword hfilter
  obtain ⟨w, -, -, hw⟩ := tree.exists_token (i := word) (by rcases hword with h | h <;> rw [h] <;> rfl)
  rcases second with _ | ⟨i, second⟩ <;> rcases filter with _ | ⟨j, filter⟩
  · simp [nodes, items, follow, Item.ranges, Tiled, InOrder, hw] at ht hin ⊢
    exact ⟨by omega, hin.1, by omega, hin.2, by omega⟩
  · obtain ⟨u, -, -, hu⟩ := tree.exists_token (i := j) (by rw [hfilter j filter rfl]; rfl)
    simp [nodes, items, follow, Item.ranges, Tiled, InOrder, hw, hu] at ht hin ⊢
    exact ⟨by omega, hin.1, by omega, hin.2.1, by omega, hin.2.2, by omega⟩
  · obtain ⟨t, -, -, ht'⟩ := tree.exists_token (i := i) (by rw [(hsecond i second rfl).1]; rfl)
    simp [nodes, items, follow, Item.ranges, Tiled, InOrder, hw, ht'] at ht hin ⊢
    exact ⟨by omega, hin.1, by omega, hin.2.1, by omega, hin.2.2, by omega⟩
  · obtain ⟨t, -, -, ht'⟩ := tree.exists_token (i := i) (by rw [(hsecond i second rfl).1]; rfl)
    obtain ⟨u, -, -, hu⟩ := tree.exists_token (i := j) (by rw [hfilter j filter rfl]; rfl)
    simp [nodes, items, follow, Item.ranges, Tiled, InOrder, hw, ht', hu] at ht hin ⊢
    exact ⟨by omega, hin.1, by omega, hin.2.1, by omega, hin.2.2.1, by omega, hin.2.2.2, by omega⟩

end Header

/-! ## Loops -/

/-- The parts of a loop. -/
structure LoopShape where
  keyword : Nat
  header : Header
  body : Node
  /-- The body stands before the keyword. -/
  isTrailing : Bool
  thenToken : Option Nat

namespace LoopShape

def items (s : LoopShape) : List Item :=
  if s.isTrailing then [.node s.body] ++ [.token s.keyword] ++ s.header.items
  else [.token s.keyword] ++ s.header.items ++ (s.thenToken.map Item.token).toList ++ [.node s.body]

/-- The node has these parts. -/
structure Of (tree : Tree) (n : Node) (s : LoopShape) : Prop where
  items : n.items = s.items
  keyword : tree.kindAt s.keyword = .forKw
  header : s.header.Sound tree
  body : s.body.kind = .block
  thenToken : ∀ i, s.thenToken = some i → s.isTrailing = false ∧ tree.kindAt i = .thenKw

end LoopShape

theorem Node.Sound.exists_loopShape (h : n.Sound tree) (hk : n.kind = .forExpr) : ∃ s : LoopShape, s.Of tree n := by
  have hrows := h.rows
  rw [hk, production] at hrows
  rcases hrows.add with hrows | hrows
  · obtain ⟨_, _, hitems, h, hbody⟩ := hrows.mul
    obtain ⟨_, _, rfl, hfor, hheader⟩ := h.mul
    obtain ⟨keyword, rfl, h1⟩ := hfor.word
    obtain ⟨header, rfl, h2⟩ := hheader.header
    obtain ⟨thenToken, body, rfl, h3, h4⟩ := hbody.body
    refine ⟨⟨keyword, header, body, false, thenToken⟩, ?_, mem_singleton.1 h1, h2, h3, ?_⟩
    · simpa [LoopShape.items] using hitems
    · exact fun i h => ⟨rfl, h4 i h⟩
  · obtain ⟨_, _, hitems, h, hheader⟩ := hrows.mul
    obtain ⟨_, _, rfl, hblock, hfor⟩ := h.mul
    obtain ⟨body, rfl, h3, -⟩ := hblock.node
    obtain ⟨keyword, rfl, h1⟩ := hfor.word
    obtain ⟨header, rfl, h2⟩ := hheader.header
    exact ⟨⟨keyword, header, body, true, none⟩, hitems, mem_singleton.1 h1, h2, beq_iff_eq.1 h3, fun _ h => by cases h⟩

namespace LoopShape.Of

variable {s : LoopShape} (hs : s.Of tree n)
include hs

theorem view (hk : n.kind = .forExpr) :
    LoopView.ofNode? tree n = some (s.header.view tree s.keyword s.thenToken s.body) := by
  obtain ⟨keyword, header, body, isTrailing, thenToken⟩ := s
  obtain ⟨hitems, hkeyword, hheader, -, hthen⟩ := hs
  simp only at hkeyword hheader hthen
  rw [LoopView.ofNode?, if_pos hk, hitems, LoopShape.items]
  cases isTrailing with
  | true =>
    obtain rfl : thenToken = none := by
      cases thenToken with
      | none => rfl
      | some i => cases (hthen i rfl).1
    have hscan := Header.scan_items hheader keyword (some body)
    simp only [if_true, foldl_append, foldl_cons, foldl_nil, LoopView.Scan.item,
      LoopView.Scan.node, LoopView.Scan.token, hkeyword, Option.isNone_none]
    rw [hscan]
    rw [Header.finish_scan]
  | false =>
    have hscan := Header.scan_items hheader keyword none
    simp only [Bool.false_eq_true, if_false, foldl_append, foldl_cons, foldl_nil,
      LoopView.Scan.item, LoopView.Scan.token, hkeyword]
    rw [hscan]
    -- The filter is taken, if there is one, so the last node is the body.
    cases thenToken with
    | none =>
      rw [← Header.finish_scan header keyword none body true header.filter.isSome]
      cases hfilter : header.filter <;> simp [LoopView.Scan.node]
    | some i =>
      rw [← Header.finish_scan header keyword (some i) body true header.filter.isSome]
      cases hfilter : header.filter <;>
        simp [LoopView.Scan.item, LoopView.Scan.token, LoopView.Scan.node, (hthen i rfl).2]

theorem mem_children {c : Node} (hc : c = s.body ∨ c ∈ s.header.nodes) : c ∈ n.children := by
  rw [Node.mem_children, hs.items, LoopShape.items]
  rcases hc with rfl | hc
  · split <;> simp
  · have := Header.mem_nodes.1 hc
    split <;> simp [this]

/-- The parts that the view of a loop names. -/
theorem exists_view (hk : n.kind = .forExpr) :
    ∃ v, LoopView.ofNode? tree n = some v ∧ v = s.header.view tree s.keyword s.thenToken s.body ∧
      v.forToken = some s.keyword ∧ v.target = some s.header.target ∧ v.body = some s.body ∧
      (∀ c ∈ v.key, c ∈ s.header.nodes) ∧ (∀ c ∈ v.value, c ∈ s.header.nodes) ∧
      (∀ c ∈ v.filter, c ∈ s.header.nodes) :=
  ⟨_, hs.view hk, rfl, rfl, rfl, rfl, fun _ => Header.mem_of_key, fun _ => Header.mem_of_value,
    fun _ => Header.mem_of_filter⟩

theorem mem_children_of_view (hk : n.kind = .forExpr) {v : LoopView} (hv : LoopView.ofNode? tree n = some v) {c : Node}
    (hc : c ∈ v.key.toList ++ v.value.toList ++ v.target.toList ++ v.filter.toList ++ v.body.toList) :
    c ∈ n.children := by
  obtain ⟨_, hview, -, -, htarget, hbody, hkey, hvalue, hfilter⟩ := hs.exists_view hk
  cases hview.symm.trans hv
  simp only [htarget, hbody, Option.toList_some, mem_append, Option.mem_toList, mem_singleton] at hc
  apply hs.mem_children
  rcases hc with (((hc | hc) | rfl) | hc) | rfl
  · exact Or.inr (hkey c hc)
  · exact Or.inr (hvalue c hc)
  · exact Or.inr s.header.target_mem
  · exact Or.inr (hfilter c hc)
  · exact Or.inl rfl

/-- A loop that starts with its body is not steady. -/
theorem not_steady (hk : n.kind = .forExpr) (ht : s.isTrailing = true) : ¬ n.Steady tree := fun h => by
  have hsymbol := h.symbol
  have hitems : n.elements.items = _ := hs.items
  rw [Node.symbol, Forest.symbols_eq_map, hitems, LoopShape.items, if_pos ht] at hsymbol
  simp only [cons_append, map_cons, Item.symbol, Node.symbol, hs.body,
    Symbol.ofNode_of_ne (show Kind.block ≠ .forExpr by decide) (show Kind.block ≠ .ifExpr by decide)] at hsymbol
  simp [Symbol.ofNode, hk] at hsymbol

theorem inside (hn : n.Sound tree) {c : Node} (hc : c ∈ s.header.nodes) : c.range.Inside tree.text :=
  (hn.child (hs.mem_children (Or.inr hc))).inside

/-- A loop that starts with its body: the body, the keyword, the header. -/
theorem trailing (hn : n.Sound tree) (ht : s.isTrailing = true) :
    ∃ t, tree.token? s.keyword = some t ∧ t.range.Inside tree.text ∧
      s.body.range.start = n.range.start ∧ s.body.range.stop ≤ t.range.start ∧
      InOrder tree.text 1 t.range.start n.range.stop (s.header.nodes.map fun c => c.range) := by
  obtain ⟨t, htoken, -, hreach⟩ := tree.exists_token (i := s.keyword) (by rw [hs.keyword]; rfl)
  obtain ⟨t', ht', hsig, heq⟩ := Reach.ofToken_eq_some.1 hreach
  cases htoken.symm.trans ht'
  have hin := hn.ordered.inside_of_getElem? ht' hsig
  have htiled := hn.tiled
  rw [Forest.ranges_eq_flatMap, ← Node.items, hs.items, LoopShape.items, if_pos ht, append_assoc,
    flatMap_append, flatMap_append] at htiled
  simp only [flatMap_cons, flatMap_nil, Item.ranges, hreach, Option.map_some, Option.toList_some, append_nil] at htiled
  have hne : s.header.items.flatMap (Item.ranges tree.tokens) ≠ [] := by
    simp [Header.items, Item.ranges]
  obtain ⟨c, d, ⟨hbody, -, rfl⟩, hle, htiled⟩ := htiled.split (cons_ne_nil _ _) (cons_ne_nil _ _)
  obtain ⟨c', d', ⟨rfl, -, rfl⟩, hle', htiled⟩ :=
    @Tiled.split _ _ [t.range] _ htiled (cons_ne_nil _ _) hne
  have hlt := hin.nonempty
  exact ⟨t, htoken, hin, hbody, hle, Header.inOrder hs.header htiled (by omega) fun c hc => hs.inside hn hc⟩

/-- A loop that starts with its keyword: the header lies between the keyword and the body. -/
theorem leading (hn : n.Sound tree) (ht : s.isTrailing = false) :
    ∃ t c, tree.token? s.keyword = some t ∧ t.range.start = n.range.start ∧
      InOrder tree.text 1 n.range.start c (s.header.nodes.map fun c => c.range) ∧
      c ≤ s.body.range.start ∧ s.body.range.stop ≤ n.range.stop := by
  obtain ⟨t, htoken, -, hreach⟩ := tree.exists_token (i := s.keyword) (by rw [hs.keyword]; rfl)
  have htiled := hn.tiled
  rw [Forest.ranges_eq_flatMap, ← Node.items, hs.items, LoopShape.items, if_neg (by simp [ht]),
    append_assoc, append_assoc, flatMap_append, flatMap_append] at htiled
  simp only [flatMap_cons, flatMap_nil, Item.ranges, hreach, Option.map_some, Option.toList_some, append_nil] at htiled
  have hne : s.header.items.flatMap (Item.ranges tree.tokens) ≠ [] := by
    simp [Header.items, Item.ranges]
  obtain ⟨c, d, ⟨hstart, hlt, rfl⟩, hle, htiled⟩ :=
    @Tiled.split _ _ [t.range] _ htiled (cons_ne_nil _ _) (by simp [hne])
  obtain ⟨c', d', hheader, hle', hrest⟩ := htiled.split hne (by simp [Item.ranges])
  have hbody := hrest.mem (r := s.body.range) (by simp [Item.ranges])
  exact ⟨t, c', htoken, hstart, Header.inOrder hs.header hheader (by omega) fun c hc => hs.inside hn hc,
    by omega, hbody.2.2⟩

end LoopShape.Of

/-! ## Keywords -/

theorem Node.Sound.spans (h : n.Sound tree) {a k : Nat} (ht : n.elements.tokens = List.range' a k) :
    ∃ r : Reach, r.Spans tree.tokens a (a + k) ∧ n.tokens = some (r.first, r.last) ∧ n.range = r.range := by
  obtain ⟨a', k', ht', r, hr, hn⟩ := h.placed.1.reach
  have hk : k' ≠ 0 := fun h => by
    have := hr.bounds
    omega
  have heq := ht.symm.trans ht'
  have hlen : k = k' := by simpa using congrArg List.length heq
  subst hlen
  obtain ⟨k, rfl⟩ := Nat.exists_eq_succ_of_ne_zero hk
  simp only [Nat.succ_eq_add_one, range'_succ, List.cons.injEq] at heq
  rw [heq.1]
  exact ⟨r, hr, hn⟩

/-- The first token of a node that starts with code. -/
theorem Node.Sound.first_token (h : n.Sound tree) (hitems : n.items = .token i :: rest)
    (hk : (tree.kindAt i).isLayout = false) : ∃ last, n.tokens = some (i, last) := by
  obtain ⟨a, k, ht, -⟩ := h.placed.1.reach
  obtain ⟨r, hr, hn, -⟩ := h.spans ht
  rw [Forest.tokens_eq_flatMap, ← Node.items, hitems, flatMap_cons] at ht
  obtain ⟨m, -, hi, -⟩ := Forest.range'_split ht
  have ha : a = i := by
    have : m = 1 := by simpa [Item.tokens] using (congrArg List.length hi).symm
    subst this
    simpa [Item.tokens] using hi.symm
  obtain ⟨t, -, -, hreach⟩ := tree.exists_token hk
  have hfirst : r.first = i := by
    have hb := hr.bounds
    by_contra hne
    have := hr.before i (by omega) (by omega)
    rw [hreach] at this
    cases this
  exact ⟨r.last, hfirst ▸ hn⟩

variable {body : Node}

/-- Between a node and a token behind it stand the tokens between the two, and layout. -/
theorem Node.Sound.kinds_between (h : n.Sound tree) {P : Kind → Prop} (hP : ∀ k : Kind, k.isLayout = true → P k)
    {before between behind : List Item} (hitems : n.items = before ++ (.node body :: between) ++ .token i :: behind)
    (hbetween : ∀ x ∈ between, ∃ j, x = .token j ∧ P (tree.kindAt j)) :
    ∃ first last, body.tokens = some (first, last) ∧ last < i ∧ (∀ j, last < j → j < i → P (tree.kindAt j)) ∧
      ∀ c, .node c ∈ behind → ∃ first' last', c.tokens = some (first', last') ∧ i < first' := by
  have hbody : body.Sound tree := h.child (Node.mem_children.2 (by simp [hitems]))
  obtain ⟨a, k, ht, -⟩ := h.placed.1.reach
  rw [Forest.tokens_eq_flatMap, ← Node.items, hitems, append_assoc, flatMap_append,
    flatMap_append, flatMap_cons, flatMap_cons, append_assoc] at ht
  obtain ⟨m₀, -, -, ht⟩ := Forest.range'_split ht
  obtain ⟨m, -, hm, ht⟩ := Forest.range'_split ht
  obtain ⟨m', -, hm', ht⟩ := Forest.range'_split ht
  obtain ⟨one, -, hone, hbehind⟩ := Forest.range'_split ht
  obtain rfl : one = 1 := by simpa [Item.tokens] using (congrArg List.length hone).symm
  obtain ⟨r, hr, htokens, -⟩ := hbody.spans hm
  have hi : i = a + m₀ + m + m' := by simpa [Item.tokens] using hone
  have hbounds := hr.bounds
  refine ⟨r.first, r.last, htokens, by omega, fun j hj hji => ?_, fun c hc => ?_⟩
  · rcases Nat.lt_or_ge j (a + m₀ + m) with hlt | hge
    · -- A token of the body behind its last code.
      have hnone := hr.after j hj hlt
      apply hP
      by_contra hlayout
      obtain ⟨t, -, -, hreach⟩ := tree.exists_token (i := j) (by simpa using hlayout)
      rw [hreach] at hnone
      cases hnone
    · have hmem : j ∈ between.flatMap Item.tokens := by
        rw [hm', mem_range'_1]
        omega
      obtain ⟨x, hx, hj⟩ := mem_flatMap.1 hmem
      obtain ⟨j', rfl, hkind⟩ := hbetween x hx
      rwa [mem_singleton.1 hj]
  · obtain ⟨a', k', ht', r', hr', hc', -⟩ :=
      (h.child (c := c) (Node.mem_children.2 (by simp [hitems, hc]))).placed.1.reach
    have hb := hr'.bounds
    refine ⟨r'.first, r'.last, hc', ?_⟩
    have hmem : r'.first ∈ behind.flatMap Item.tokens :=
      mem_flatMap.2 ⟨.node c, hc, by
        rw [Item.tokens, ht']
        exact mem_range'_1.2 (by omega)⟩
    rw [hbehind, mem_range'_1] at hmem
    omega

/-- Between a node and a part behind the keyword, the keyword is the first of its kind. -/
theorem Node.Sound.keywordBetween?_eq (h : n.Sound tree) {before between behind : List Item} {c : Node}
    {left right : Site} (hitems : n.items = before ++ (.node body :: between) ++ .token i :: behind)
    (hbetween : ∀ x ∈ between, ∃ j, x = .token j ∧ tree.kindAt j ≠ k) (hc : .node c ∈ behind)
    (hk : tree.kindAt i = k) (hlayout : k.isLayout = false) (hleft : left.outer = body.toLabel)
    (hright : right.outer = c.toLabel) : tree.keywordBetween? left right k = tree.token? i := by
  subst hk
  have hP : ∀ k : Kind, k.isLayout = true → k ≠ tree.kindAt i := by
    rintro _ hk rfl
    cases hk.symm.trans hlayout
  obtain ⟨first, last, hbody, hlt, hall, hrest⟩ := h.kinds_between hP hitems hbetween
  obtain ⟨first', last', hfirst, hlt'⟩ := hrest c hc
  obtain ⟨t, htoken, hkind, -⟩ := tree.exists_token hlayout
  have hfind : tree.tokenBetween? left right (fun t => t.kind == tree.kindAt i) = some i := by
    simp only [Tree.tokenBetween?, hleft, hright, hbody, hfirst]
    rw [find?_range'_eq_some]
    refine ⟨by simp [htoken, hkind], mem_range'_1.2 (by omega), fun j hj hji => ?_⟩
    have hj := hall j (by omega) hji
    cases hu : tree.token? j with
    | none => rfl
    | some u =>
      rw [Tree.kindAt, hu] at hj
      simpa using hj
  rw [Tree.keywordBetween?, hfind, Option.bind_some]

/-! ## Conditionals -/

/-- What follows the consequence of a conditional. -/
structure Alternative where
  newline : Option Nat
  keyword : Nat
  thenToken : Option Nat
  /-- A block, or the next conditional. -/
  node : Node

/-- A token that may be absent. -/
def optional (i : Option Nat) : List Item := (i.map Item.token).toList

namespace Alternative

def items (a : Alternative) : List Item :=
  optional a.newline ++ [.token a.keyword] ++ optional a.thenToken ++ [.node a.node]

structure Sound (tree : Tree) (a : Alternative) : Prop where
  newline : ∀ i, a.newline = some i → tree.kindAt i = .newline
  keyword : tree.kindAt a.keyword = .elseKw
  thenToken : ∀ i, a.thenToken = some i → tree.kindAt i = .thenKw ∧ a.node.kind = .block
  node : a.node.kind = .ifExpr ∨ a.node.kind = .block

end Alternative

theorem Rows.optional {items : List Item} (h : Rows tree (1 + Syntax.word [k]) items) :
    ∃ o, items = Respell.optional o ∧ ∀ i, o = some i → tree.kindAt i = k := by
  rcases h.add with h | h
  · exact ⟨none, h.one, fun _ h => by cases h⟩
  · obtain ⟨i, rfl, hi⟩ := h.word
    refine ⟨some i, rfl, fun _ h => ?_⟩
    cases h
    exact mem_singleton.1 hi

theorem Rows.alternative {items : List Item} (h : Rows tree Syntax.alternate items) :
    ∃ a : Alternative, items = a.items ∧ a.Sound tree := by
  obtain ⟨_, _, rfl, h, hbranch⟩ := h.mul
  obtain ⟨_, _, rfl, hnewline, helse⟩ := h.mul
  obtain ⟨newline, rfl, h1⟩ := hnewline.optional
  obtain ⟨keyword, rfl, h2⟩ := helse.word
  rcases hbranch.add with hbranch | hbranch
  · obtain ⟨c, rfl, hc, -⟩ := hbranch.node
    exact ⟨⟨newline, keyword, none, c⟩, by simp [Alternative.items, Respell.optional], h1,
      mem_singleton.1 h2, (fun _ h => by cases h), Or.inl (beq_iff_eq.1 hc)⟩
  · obtain ⟨thenToken, c, rfl, hc, h3⟩ := hbranch.body
    exact ⟨⟨newline, keyword, thenToken, c⟩, by simp [Alternative.items, Respell.optional], h1,
      mem_singleton.1 h2, fun i hi => ⟨h3 i hi, hc⟩, Or.inr hc⟩

/-- The parts of a conditional that starts with its keyword. -/
structure ConditionalShape where
  keyword : Nat
  condition : Node
  thenToken : Option Nat
  consequent : Node
  alternative : Option Alternative

namespace ConditionalShape

def items (s : ConditionalShape) : List Item :=
  [.token s.keyword] ++ [.node s.condition] ++ optional s.thenToken ++ [.node s.consequent] ++
    (s.alternative.map Alternative.items).getD []

/-- The node has these parts. -/
structure Of (tree : Tree) (n : Node) (s : ConditionalShape) : Prop where
  items : n.items = s.items
  keyword : tree.kindAt s.keyword = .ifKw
  thenToken : ∀ i, s.thenToken = some i → tree.kindAt i = .thenKw
  consequent : s.consequent.kind = .block
  alternative : ∀ a, s.alternative = some a → a.Sound tree

/-- The view of a conditional with these parts.  The last `then` counts. -/
def view (s : ConditionalShape) : ConditionalView where
  ifToken := some s.keyword
  thenToken := (s.alternative.bind Alternative.thenToken).or s.thenToken
  elseToken := s.alternative.map Alternative.keyword
  isTrailing := false
  condition := some s.condition
  consequent := some s.consequent
  alternate := s.alternative.map Alternative.node

theorem Of.view {s : ConditionalShape} (hs : s.Of tree n) (hk : n.kind = .ifExpr) :
    ConditionalView.ofNode? tree n = some s.view := by
  obtain ⟨keyword, condition, thenToken, consequent, alternative⟩ := s
  obtain ⟨hitems, hkeyword, hthen, -, halternative⟩ := hs
  simp only at hkeyword hthen halternative
  have hhead : ([.token keyword] ++ [.node condition] ++ optional thenToken ++ [.node consequent] :
      List Item).foldl (ConditionalView.item tree) {} =
        { ifToken := some keyword, thenToken, condition := some condition, consequent := some consequent } := by
    cases thenToken with
    | none =>
      simp [optional, ConditionalView.item, ConditionalView.token, ConditionalView.node, hkeyword]
    | some i =>
      simp [optional, ConditionalView.item, ConditionalView.token, ConditionalView.node, hkeyword, hthen i rfl]
  rw [ConditionalView.ofNode?, if_pos hk, hitems, ConditionalShape.items, foldl_append, hhead]
  cases alternative with
  | none => rfl
  | some a =>
    obtain ⟨newline, elseToken, thenToken', c⟩ := a
    obtain ⟨h1, h2, h3, -⟩ := halternative _ rfl
    simp only at h1 h2 h3
    cases newline <;> cases thenToken' <;>
      simp_all [Alternative.items, optional, ConditionalView.item, ConditionalView.token,
        ConditionalView.node, ConditionalShape.view]

end ConditionalShape

/-- A conditional that starts with its keyword: the elements. -/
theorem Node.exists_conditionalShape
    (hrows : Rows tree (Syntax.word [.ifKw] * Syntax.node isExpression * Syntax.body * (1 + Syntax.alternate))
      n.items) : ∃ s : ConditionalShape, s.Of tree n := by
  obtain ⟨_, _, hitems, h, halternative⟩ := hrows.mul
  obtain ⟨_, _, rfl, h, hbody⟩ := h.mul
  obtain ⟨_, _, rfl, hif, hcondition⟩ := h.mul
  obtain ⟨keyword, rfl, h1⟩ := hif.word
  obtain ⟨condition, rfl, -⟩ := hcondition.node
  obtain ⟨thenToken, consequent, rfl, hblock, h2⟩ := hbody.body
  rcases halternative.add with halternative | halternative
  · obtain rfl := halternative.one
    refine ⟨⟨keyword, condition, thenToken, consequent, none⟩, ?_, mem_singleton.1 h1, h2, hblock,
      fun _ h => by cases h⟩
    simpa [ConditionalShape.items, optional] using hitems
  · obtain ⟨a, rfl, ha⟩ := halternative.alternative
    refine ⟨⟨keyword, condition, thenToken, consequent, some a⟩, ?_, mem_singleton.1 h1, h2, hblock, ?_⟩
    · simpa [ConditionalShape.items, optional] using hitems
    · intro _ h
      cases h
      exact ha

/-- A conditional that starts with its body: the elements and the view. -/
theorem Node.trailing_view (hk : n.kind = .ifExpr)
    (hrows : Rows tree (Syntax.block * Syntax.word [.ifKw] * Syntax.node isExpression) n.items) :
    ∃ body i condition, n.items = [.node body, .token i, .node condition] ∧ tree.kindAt i = .ifKw ∧
      body.kind = .block ∧ ConditionalView.ofNode? tree n = some
        { ifToken := some i, isTrailing := true, condition := some condition, consequent := some body } := by
  obtain ⟨_, _, hitems, h, hcondition⟩ := hrows.mul
  obtain ⟨_, _, rfl, hblock, hif⟩ := h.mul
  obtain ⟨body, rfl, h1, -⟩ := hblock.node
  obtain ⟨i, rfl, h2⟩ := hif.word
  obtain ⟨condition, rfl, -⟩ := hcondition.node
  refine ⟨body, i, condition, hitems, mem_singleton.1 h2, beq_iff_eq.1 h1, ?_⟩
  rw [ConditionalView.ofNode?, if_pos hk, hitems]
  simp [ConditionalView.item, ConditionalView.token, ConditionalView.node, mem_singleton.1 h2]

/-- A conditional starts with its keyword, or it is a body, the keyword and the condition. -/
theorem Node.Sound.conditional_cases (h : n.Sound tree) (hk : n.kind = .ifExpr) :
    (∃ v, ConditionalView.ofNode? tree n = some v ∧ v.isTrailing = false) ∨
      ∃ body i condition, n.items = [.node body, .token i, .node condition] ∧ tree.kindAt i = .ifKw ∧
        body.kind = .block ∧ ConditionalView.ofNode? tree n = some
          { ifToken := some i, isTrailing := true, condition := some condition, consequent := some body } := by
  have hrows := h.rows
  rw [hk, production] at hrows
  rcases hrows.add with hrows | hrows
  · left
    obtain ⟨s, hs⟩ := Node.exists_conditionalShape hrows
    exact ⟨s.view, hs.view hk, rfl⟩
  · right
    exact Node.trailing_view hk hrows

/-- A conditional that starts with its body: the body, the keyword, the condition. -/
theorem Node.Sound.trailing_conditional (h : n.Sound tree) {condition : Node}
    (hitems : n.items = [.node body, .token i, .node condition]) (hi : tree.kindAt i = .ifKw) :
    ∃ t, tree.token? i = some t ∧ t.range.Inside tree.text ∧ body.range.start = n.range.start ∧
      body.range.stop ≤ t.range.start ∧ InOrder tree.text 1 t.range.start n.range.stop [condition.range] := by
  obtain ⟨t, htoken, -, hreach⟩ := tree.exists_token (i := i) (by rw [hi]; rfl)
  obtain ⟨t', ht', hsig, -⟩ := Reach.ofToken_eq_some.1 hreach
  cases htoken.symm.trans ht'
  have hin := h.ordered.inside_of_getElem? ht' hsig
  have hmem : condition ∈ n.children := Node.mem_children.2 (by simp [hitems])
  have hcondition := (h.child hmem).inside
  have htiled := h.tiled
  rw [Forest.ranges_eq_flatMap, ← Node.items, hitems] at htiled
  simp [Item.ranges, hreach, Tiled] at htiled
  exact ⟨t, htoken, hin, by omega, by omega, by omega, hcondition, by simp only [InOrder]; omega⟩

theorem Node.conditional_not_steady (hk : n.kind = .ifExpr) {condition : Node}
    (hitems : n.items = [.node body, .token i, .node condition]) (hbody : body.kind = .block) :
    ¬ n.Steady tree := fun h => by
  have hsymbol := h.symbol
  have hitems : n.elements.items = _ := hitems
  rw [Node.symbol, Forest.symbols_eq_map, hitems] at hsymbol
  simp only [map_cons, Item.symbol, Node.symbol, hbody,
    Symbol.ofNode_of_ne (show Kind.block ≠ .forExpr by decide) (show Kind.block ≠ .ifExpr by decide)] at hsymbol
  simp [Symbol.ofNode, hk] at hsymbol

/-! ## Parentheses -/

theorem Node.unwrapParens_of_ne (h : n.kind ≠ .parenExpr) : n.unwrapParens = n := if_neg h

theorem Node.Sound.paren (h : n.Sound tree) (hk : n.kind = .parenExpr) :
    ∃ c, n.children = [c] ∧ c.Sound tree ∧ n.unwrapParens = c.unwrapParens ∧
      n.range.start < c.range.start ∧ c.range.stop < n.range.stop := by
  have hrows := h.rows
  rw [hk, production] at hrows
  obtain ⟨_, _, hitems, h', hright⟩ := hrows.mul
  obtain ⟨_, _, rfl, hleft, hinner⟩ := h'.mul
  obtain ⟨i, rfl, hi⟩ := hleft.word
  obtain ⟨c, rfl, -, -⟩ := hinner.node
  obtain ⟨j, rfl, hj⟩ := hright.word
  obtain ⟨t, -, -, ht⟩ := tree.exists_token (i := i) (by rw [mem_singleton.1 hi]; rfl)
  obtain ⟨u, -, -, hu⟩ := tree.exists_token (i := j) (by rw [mem_singleton.1 hj]; rfl)
  have htiled := h.tiled
  rw [Forest.ranges_eq_flatMap, ← Node.items, hitems] at htiled
  simp [Item.ranges, ht, hu, Tiled] at htiled
  have hmem : c ∈ n.children := Node.mem_children.2 (by simp [hitems])
  have hchildren : n.children = [c] := by
    rw [Node.children, Forest.nodes_eq_filterMap, ← Node.items, hitems]
    rfl
  refine ⟨c, hchildren, h.child hmem, ?_, by omega, by omega⟩
  -- The first node among the elements is the inner one.
  rw [Node.unwrapParens, if_pos hk]
  obtain ⟨l, f⟩ := n
  simp only [Node.items] at hitems
  cases f with
  | nil => cases hitems
  | node l' inside rest => cases hitems
  | token i' rest =>
    cases rest with
    | nil => cases hitems
    | token i'' rest => cases hitems
    | node l' inside rest =>
      obtain ⟨-, hc, -⟩ : i' = i ∧ (⟨l', inside⟩ : Node) = c ∧ _ := by simpa [Forest.items] using hitems
      rw [← hc]
      rfl

/-- What holds of nodes without parentheses and goes from a node to its parentheses holds of all. -/
theorem Node.Sound.parens_induction {P : Node → Prop} (base : ∀ n, n.Sound tree → n.kind ≠ .parenExpr → P n)
    (step : ∀ n c, n.Sound tree → n.kind = .parenExpr → n.children = [c] → c.Sound tree →
      n.unwrapParens = c.unwrapParens → n.range.start < c.range.start → c.range.stop < n.range.stop →
      P c → P n) (n : Node) (h : n.Sound tree) : P n := by
  induction n using Node.descendants_induction with
  | step n ih =>
    by_cases hk : n.kind = .parenExpr
    · obtain ⟨c, hchildren, hc, hunwrap, hstart, hstop⟩ := h.paren hk
      have hmem : c ∈ n.children := by simp [hchildren]
      exact step n c h hk hchildren hc hunwrap hstart hstop (ih c (Node.child_mem_descendants hmem) hc)
    · exact base n h hk

/-- The node in the parentheses is sound and lies in them. -/
theorem Node.Sound.unwrapParens (h : n.Sound tree) :
    n.unwrapParens.Sound tree ∧ n.unwrapParens.kind ≠ .parenExpr ∧
      n.range.start ≤ n.unwrapParens.range.start ∧ n.unwrapParens.range.stop ≤ n.range.stop := by
  refine Node.Sound.parens_induction (P := fun n => n.unwrapParens.Sound tree ∧
    n.unwrapParens.kind ≠ .parenExpr ∧ n.range.start ≤ n.unwrapParens.range.start ∧
      n.unwrapParens.range.stop ≤ n.range.stop) ?_ ?_ n h
  · intro n hn hk
    rw [Node.unwrapParens_of_ne hk]
    exact ⟨hn, hk, Nat.le_refl _, Nat.le_refl _⟩
  · intro n c _ _ _ _ hunwrap hstart hstop ⟨h1, h2, h3, h4⟩
    rw [hunwrap]
    exact ⟨h1, h2, by omega, by omega⟩

end Respell
