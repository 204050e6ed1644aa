import Respell.Proofs.Javascript.Binding
import Respell.Proofs.Patch.Pointing

/-!
Where the parts and the tokens of a construct stand.

The parts of a construct stand one behind the other.  Of the tokens that JavaScript does not have, some stand in the
parts.  All others stand where the construct replaces the text: operators and `@` one by one, `then` in front of a
block, and the rest in the header of a loop, a parameter with its default value, an arrow or an assignment by existence.
-/

namespace Respell

open List Text

variable {tree : Tree} {n : Node}

/-! ## Places between nodes -/

theorem Site.On.whole_inside {s : Site} (h : s.On n) (hn : n.Sound tree) : s.whole.Inside tree.text :=
  h.whole ▸ hn.inside

theorem Site.On.content_inside {s : Site} (h : s.On n) (hn : n.Sound tree) : s.content.Inside tree.text :=
  h.content ▸ hn.unwrapParens.1.inside

theorem Token.isSignificant_of_kind {t : Token} {k : Kind} (ht : t.kind = k) (hk : k.isLayout = false) :
    t.isSignificant = true := by
  rw [Token.isSignificant, ht, hk]
  rfl

section Between

variable {left right : Site} {a b : Node} {k : Kind} {t : Token}

theorem Tree.keywordBetween?_eq_some (hleft : left.On a) (hright : right.On b) {first last first' last' : Nat}
    (ha : a.tokens = some (first, last)) (hb : b.tokens = some (first', last'))
    (h : tree.keywordBetween? left right k = some t) :
    ∃ i, last < i ∧ i < first' ∧ tree.token? i = some t ∧ t.kind = k := by
  obtain ⟨i, hi, ht⟩ := Option.bind_eq_some_iff.1 h
  rw [Tree.tokenBetween?, hleft.outer, hright.outer, ha, hb] at hi
  have hmem := mem_range'_1.1 (mem_of_find?_eq_some hi)
  have hkind := find?_some hi
  rw [ht] at hkind
  exact ⟨i, by omega, by omega, ht, beq_iff_eq.1 hkind⟩

/-- A keyword that is found between two nodes stands between them. -/
theorem Tree.keywordBetween?_inside (ha : a.Sound tree) (hb : b.Sound tree) (hleft : left.On a) (hright : right.On b)
    (hk : k.isLayout = false) (h : tree.keywordBetween? left right k = some t) :
    t.range.Inside tree.text ∧ a.range.stop ≤ t.range.start ∧ t.range.stop ≤ b.range.start ∧
      tree.Closes t.range.stop := by
  obtain ⟨_, last, _, u, htokens, -, hu, husig, hustop⟩ := ha.ends
  obtain ⟨first, _, s, _, htokens', ⟨hs, hssig, hsstart⟩, -⟩ := hb.ends
  obtain ⟨i, hlast, hfirst, ht, hkind⟩ := tree.keywordBetween?_eq_some hleft hright htokens htokens' h
  have hsig := Token.isSignificant_of_kind hkind hk
  refine ⟨ha.ordered.inside_of_getElem? ht hsig, ?_, ?_, t, mem_of_getElem? ht, hsig, rfl⟩
  · exact hustop ▸ ha.ordered.lt hlast hu ht husig hsig
  · exact hsstart ▸ ha.ordered.lt hfirst ht hs hsig hssig

/-- Behind the consequence of a conditional comes `else`, and `then` after it. -/
theorem ConditionalShape.Of.else_between (hn : n.Sound tree) {s : ConditionalShape} (hs : s.Of tree n)
    {c : Alternative} (hc : s.alternative = some c) (hleft : left.On s.consequent) (hright : right.On c.node) :
    ∃ keyword, tree.keywordBetween? left right .elseKw = some keyword ∧ tree.token? c.keyword = some keyword ∧
      ∀ t, tree.keywordBetween? left right .thenKw = some t → keyword.range.stop ≤ t.range.start := by
  have hsound := hs.alternative c hc
  have hitems : n.items = ([.token s.keyword] ++ [.node s.condition] ++ optional s.thenToken) ++
      (.node s.consequent :: optional c.newline) ++ .token c.keyword :: (optional c.thenToken ++ [.node c.node]) := by
    rw [hs.items, ConditionalShape.items, hc]
    simp [Alternative.items]
  have hnewline : ∀ x ∈ optional c.newline, ∃ j, x = .token j ∧ tree.kindAt j = .newline := by
    intro x hx
    simp only [optional, Option.mem_toList, Option.map_eq_some_iff] at hx
    obtain ⟨j, hj, rfl⟩ := hx
    exact ⟨j, rfl, hsound.newline j hj⟩
  have hlayout : (tree.kindAt c.keyword).isLayout = false := by rw [hsound.keyword]; rfl
  obtain ⟨keyword, htoken, hkind, -⟩ := tree.exists_token hlayout
  have hnode : .node c.node ∈ optional c.thenToken ++ [.node c.node] := by simp
  have hfind := hn.keywordBetween?_eq hitems (fun x hx => (hnewline x hx).imp fun j hj =>
    ⟨hj.1, by rw [hj.2]; decide⟩) hnode hsound.keyword rfl hleft.outer hright.outer
  rw [hsound.keyword] at hkind
  refine ⟨keyword, hfind.trans htoken, htoken, fun t h => ?_⟩
  -- What stands between the consequence and `else` is layout, so `then` is not there.
  obtain ⟨_, last, hlast, -, hall, hbehind⟩ := hn.kinds_between (P := fun k => k.isLayout = true) (fun _ h => h) hitems
    fun x hx => (hnewline x hx).imp fun j hj => ⟨hj.1, by rw [hj.2]; rfl⟩
  obtain ⟨first', _, hfirst', -⟩ := hbehind c.node hnode
  obtain ⟨i, hi, -, ht, hthen⟩ := tree.keywordBetween?_eq_some hleft hright hlast hfirst' h
  have hat : tree.kindAt i = .thenKw := by rw [Tree.kindAt, ht, ← hthen]; rfl
  have hlt : c.keyword < i := by
    by_contra hle
    rcases Nat.lt_or_eq_of_le (Nat.le_of_not_lt hle) with hlt | rfl
    · have := hall i hi hlt
      rw [hat] at this
      cases this
    · cases hat.symm.trans hsound.keyword
  exact hn.ordered.lt hlt htoken ht (Token.isSignificant_of_kind hkind rfl) (Token.isSignificant_of_kind hthen rfl)

end Between

/-- The last part of the header of a loop. -/
def Header.last (h : Header) : Node := (h.filter.map Prod.snd).getD h.target

theorem Header.items_eq (h : Header) : ∃ front, h.items = front ++ [.node h.last] := by
  unfold items last
  cases h.filter with
  | none => exact ⟨_, append_nil _⟩
  | some f => exact ⟨_, (append_assoc _ [Item.token f.1] [Item.node f.2]).symm⟩

/-- A loop that starts with its keyword has its body at the end. -/
theorem LoopShape.Of.items_eq {s : LoopShape} (hs : s.Of tree n) (hleading : s.isTrailing = false) :
    ∃ front, s.header.items = front ++ [.node s.header.last] ∧
      n.items = (.token s.keyword :: front) ++ .node s.header.last :: (optional s.thenToken ++ [.node s.body]) := by
  obtain ⟨front, hfront⟩ := s.header.items_eq
  refine ⟨front, hfront, ?_⟩
  rw [hs.items, LoopShape.items, hleading, hfront]
  simp [optional]

theorem Tree.mem_ranges {i : Nat} {t : Token} (ht : tree.token? i = some t) (hs : t.isSignificant = true) :
    t.range ∈ Item.ranges tree.tokens (.token i) := by
  rw [Item.ranges, Reach.ofToken_eq_some.2 ⟨t, ht, hs, rfl⟩]
  exact mem_singleton_self _

namespace Node.Sound

/-- Elements of a node end before those behind them start. -/
theorem apart (h : n.Sound tree) {xs ys : List Item} (hitems : n.items = xs ++ ys) {x y : Item} (hx : x ∈ xs)
    (hy : y ∈ ys) {r s : Span} (hr : r ∈ x.ranges tree.tokens) (hs : s ∈ y.ranges tree.tokens) : r.stop ≤ s.start := by
  have hpairwise := h.tiled.pairwise
  rw [Forest.ranges_eq_flatMap, show n.elements.items = _ from hitems, flatMap_append] at hpairwise
  exact (pairwise_append.1 hpairwise).2.2 r (mem_flatMap.2 ⟨x, hx, hr⟩) s (mem_flatMap.2 ⟨y, hy, hs⟩)

/-- What JavaScript does not have in an element lies in the range of the element. -/
theorem exists_range (h : n.Sound tree) {x : Item} (hx : x ∈ n.items) {r : Span} (hr : r ∈ x.sourceOnly tree) :
    ∃ s ∈ x.ranges tree.tokens, s.Encloses r := by
  cases x with
  | token i =>
    obtain ⟨t, ht, hs, rfl⟩ := hr
    exact ⟨t.range, Tree.mem_ranges ht (Token.isSignificant_of_isSourceOnly hs), Nat.le_refl _, Nat.le_refl _⟩
  | node c =>
    exact ⟨c.range, mem_singleton_self _, ((h.child (Node.mem_children.2 hx)).mem_sourceOnly.1 hr).2⟩

/-- A token of a node stands in it, beside the children. -/
theorem own_apart (h : n.Sound tree) {i : Nat} (hi : i ∈ n.ownTokens) {t : Token} (ht : tree.token? i = some t)
    (hs : t.isSignificant = true) :
    (n.range.start ≤ t.range.start ∧ t.range.start < t.range.stop ∧ t.range.stop ≤ n.range.stop) ∧
      ∀ c ∈ n.children, t.range.Apart c.range := by
  have hi := Node.mem_ownTokens.1 hi
  have hrange := Tree.mem_ranges ht hs
  refine ⟨h.tiled.mem ?_, fun c hc => ?_⟩
  · rw [Forest.ranges_eq_flatMap]
    exact mem_flatMap.2 ⟨_, hi, hrange⟩
  · obtain ⟨xs, ys, hitems⟩ := append_of_mem hi
    have hc := Node.mem_children.1 hc
    rw [hitems] at hc
    rcases mem_append.1 hc with hc | hc
    · exact Or.inr (h.apart hitems hc mem_cons_self (mem_singleton_self c.range) hrange)
    · have hc := mem_of_ne_of_mem (by simp) hc
      rw [← singleton_append, ← append_assoc] at hitems
      exact Or.inl (h.apart hitems (mem_append_right _ mem_cons_self) hc hrange (mem_singleton_self c.range))

end Node.Sound

theorem mem_optional {x : Item} {o : Option Nat} : x ∈ optional o ↔ ∃ i, o = some i ∧ x = .token i := by
  simp [optional, eq_comm]

namespace Javascript

variable {nodes : List Node} {m c : Node} {r : Span}

/-- The parts of a construct are apart from each other. -/
theorem Fits.pairwise_apart {k : Construct} (h : Fits tree m nodes k) (hm : m.Sound tree) (hk : m.kind ≠ .function) :
    nodes.Pairwise fun c d => c.range.Apart d.range := by
  have hapart : m.children.Pairwise fun c d => c.range.Apart d.range := hm.children_apart.1.imp Or.inl
  exact ((h.children_perm hm hk).pairwise_iff Or.symm).1 hapart

/-! ## Conditionals -/

namespace Conditional

variable {k : Conditional} {s : ConditionalShape}

/-- The parts of a conditional are those of its shape. -/
structure Stands (tree : Tree) (m : Node) (nodes : List Node) (s : ConditionalShape) (k : Conditional) : Prop where
  shape : s.Of tree m
  condition : k.condition.Of nodes s.condition
  consequent : k.consequent.Of nodes s.consequent
  alternate : s.alternative = none ∧ k.alternate = none ∨
    ∃ a q, s.alternative = some a ∧ k.alternate = some q ∧ q.Of nodes a.node
  parts : nodes = s.condition :: s.consequent :: (s.alternative.map Alternative.node).toList

theorem exists_stands (hm : m.Sound tree) (hfits : Fits tree m nodes (.conditional k)) :
    ∃ s, Stands tree m nodes s k := by
  cases hfits with
  | conditional view leading viewCondition viewConsequent partCondition partConsequent partAlternate =>
    obtain ⟨s, hs, rfl⟩ := exists_conditional hm view leading
    cases viewCondition
    cases viewConsequent
    refine ⟨s, hs, partCondition, partConsequent, ?_, rfl⟩
    have hrel : Option.Rel (Part.Of _) (s.alternative.map Alternative.node) k.alternate := partAlternate
    generalize k.alternate = o at hrel ⊢
    cases ha : s.alternative with
    | none =>
      rw [ha] at hrel
      cases hrel
      exact Or.inl ⟨rfl, rfl⟩
    | some a =>
      rw [ha] at hrel
      cases hrel with
      | some hq => exact Or.inr ⟨a, _, rfl, rfl, hq⟩

/-- The parts of a conditional from left to right. -/
theorem Stands.order (h : Stands tree m nodes s k) (hm : m.Sound tree) :
    (s.condition.Sound tree ∧ s.consequent.Sound tree) ∧ m.range.start ≤ s.condition.range.start ∧
      s.condition.range.stop ≤ s.consequent.range.start ∧ s.consequent.range.stop ≤ m.range.stop ∧
      ∀ a, s.alternative = some a →
        a.node.Sound tree ∧ s.consequent.range.stop ≤ a.node.range.start ∧ a.node.range.stop ≤ m.range.stop := by
  have hchildren := conditional_children h.shape
  obtain ⟨hapart, hin⟩ := hm.children_apart
  rw [hchildren, conditionalNodes, ConditionalShape.view] at hapart
  simp only [Option.toList_some, cons_append, nil_append, pairwise_cons, mem_cons] at hapart
  have hcondition : s.condition ∈ m.children := by simp [hchildren, conditionalNodes, ConditionalShape.view]
  have hconsequent : s.consequent ∈ m.children := by simp [hchildren, conditionalNodes, ConditionalShape.view]
  refine ⟨⟨hm.child hcondition, hm.child hconsequent⟩, (hin _ hcondition).2.1, hapart.1 _ (Or.inl rfl),
    (hin _ hconsequent).2.2, fun a ha => ?_⟩
  have halternate : a.node ∈ m.children := by simp [hchildren, conditionalNodes, ConditionalShape.view, ha]
  exact ⟨hm.child halternate, hapart.2.1 _ (by simp [ha]), (hin _ halternate).2.2⟩

section Stands

variable (hs : Stands tree m nodes s k) (hm : m.Sound tree) {i : Nat} {t : Token}
include hs hm

/-- `then` stands between the condition and the consequence. -/
theorem Stands.then_between (ht : tree.token? i = some t) (hi : s.thenToken = some i) :
    tree.keywordBetween? k.condition.site k.consequent.site .thenKw = some t := by
  have hitems : m.items = [.token s.keyword] ++ [.node s.condition] ++
      .token i :: (.node s.consequent :: (s.alternative.map Alternative.items).getD []) := by
    rw [hs.shape.items, ConditionalShape.items, hi]
    simp [optional]
  exact (hm.keywordBetween?_eq hitems (by simp) mem_cons_self (hs.shape.thenToken i hi) rfl hs.condition.site.outer
    hs.consequent.site.outer).trans ht

/-- `then` behind `else` stands between the two branches. -/
theorem Stands.then_behind_else (ht : tree.token? i = some t) {a : Alternative} (ha : s.alternative = some a)
    (hi : a.thenToken = some i) {q : Part} (hq : q.Of nodes a.node) :
    tree.keywordBetween? k.consequent.site q.site .thenKw = some t := by
  have hsound := hs.shape.alternative a ha
  have hthen := (hsound.thenToken i hi).1
  have hitems : m.items = ([.token s.keyword] ++ [.node s.condition] ++ optional s.thenToken) ++
      (.node s.consequent :: (optional a.newline ++ [.token a.keyword])) ++ .token i :: [.node a.node] := by
    rw [hs.shape.items, ConditionalShape.items, ha]
    simp [Alternative.items, hi, optional]
  refine (hm.keywordBetween?_eq hitems ?_ mem_cons_self hthen rfl hs.consequent.site.outer hq.site.outer).trans ht
  intro x hx
  simp only [mem_append, mem_singleton, mem_optional] at hx
  rcases hx with ⟨j, hj, rfl⟩ | rfl
  · exact ⟨j, rfl, by rw [hsound.newline j hj]; decide⟩
  · exact ⟨_, rfl, by rw [hsound.keyword]; decide⟩

/-- Whatever holds the parts of a conditional and each `then` holds all of it that JavaScript does not have. -/
theorem Stands.covered {xs : List Span} (hsound : ∀ c ∈ nodes, c.Sound tree) (hparts : ∀ c ∈ nodes, c.range ∈ xs)
    (hthen : ∀ t, tree.keywordBetween? k.condition.site k.consequent.site .thenKw = some t →
      ∃ x ∈ xs, x.Encloses t.range)
    (helse : ∀ a q, s.alternative = some a → k.alternate = some q → a.node.kind = .block → ∀ t,
      tree.keywordBetween? k.consequent.site q.site .thenKw = some t → ∃ x ∈ xs, x.Encloses t.range) :
    ∀ r ∈ m.sourceOnly tree, ∃ x ∈ xs, x.Encloses r := by
  intro r hr
  have hother {i : Nat} {k : Kind} (hi : tree.kindAt i = k) (hk : k.isSuspect = false) : r ∉ tree.sourceOnlyAt i :=
    fun hr => by cases (Tree.isSuspect_of_mem hr).symm.trans (hi ▸ hk)
  have hpart {q : Part} {c : Node} (hq : q.Of nodes c) (hr : r ∈ c.sourceOnly tree) : ∃ x ∈ xs, x.Encloses r := by
    have hc := mem_of_getElem? hq.place
    exact ⟨c.range, hparts c hc, ((hsound c hc).mem_sourceOnly.1 hr).2⟩
  obtain ⟨x, hx, hr⟩ := Node.mem_sourceOnly.1 hr
  rw [hs.shape.items, ConditionalShape.items] at hx
  simp only [mem_append, mem_singleton, mem_optional] at hx
  rcases hx with (((rfl | rfl) | ⟨i, hi, rfl⟩) | rfl) | hx
  · exact absurd hr (hother hs.shape.keyword rfl)
  · exact hpart hs.condition hr
  · obtain ⟨t, ht, -, rfl⟩ := hr
    exact hthen t (hs.then_between hm ht hi)
  · exact hpart hs.consequent hr
  · rcases hs.alternate with ⟨ha, -⟩ | ⟨a, q, ha, hk, hq⟩
    · rw [ha] at hx
      cases hx
    · have hsound := hs.shape.alternative a ha
      rw [ha, Option.map_some, Option.getD_some, Alternative.items] at hx
      simp only [mem_append, mem_singleton, mem_optional] at hx
      rcases hx with ((⟨i, hi, rfl⟩ | rfl) | ⟨i, hi, rfl⟩) | rfl
      · exact absurd hr (hother (hsound.newline i hi) rfl)
      · exact absurd hr (hother hsound.keyword rfl)
      · obtain ⟨t, ht, -, rfl⟩ := hr
        exact helse a q ha hk (hsound.thenToken i hi).2 t (hs.then_behind_else hm ht ha hi hq)
      · exact hpart hq hr

end Stands

end Conditional

/-! ## Loops -/

namespace Loop

variable {l : Loop} {s : LoopShape}

section Header

variable (hm : m.Sound tree) (hs : s.Of tree m) (hleading : s.isTrailing = false)
  (hlast : (l.filter.getD l.target).site.On s.header.last) (hbody : l.body.site.On s.body)
include hm hs hleading hlast hbody

/-- The header ends behind its parts and in front of the body. -/
theorem headerStop_spec : (tree.Place (l.headerStop tree) ∧ l.headerStop tree ≤ s.body.range.start) ∧
    ∀ c ∈ s.header.nodes, m.range.start ≤ c.range.start ∧ c.range.stop ≤ l.headerStop tree := by
  obtain ⟨front, hfront, hitems⟩ := hs.items_eq hleading
  have hmem : s.header.last ∈ m.children := by simp [Node.mem_children, hitems]
  have hsound := hm.child hmem
  have hspec : (tree.Place (l.headerStop tree) ∧ l.headerStop tree ≤ s.body.range.start) ∧
      s.header.last.range.stop ≤ l.headerStop tree := by
    unfold headerStop
    dsimp only
    split
    · rename_i t ht
      obtain ⟨hin, hle, hge, hcloses⟩ := tree.keywordBetween?_inside hsound (hm.child (hs.mem_children (Or.inl rfl)))
        hlast hbody rfl ht
      exact ⟨⟨hcloses.place, hge⟩, Nat.le_trans hle (Nat.le_of_lt hin.nonempty)⟩
    · rw [hlast.whole]
      have hitems : m.items = (.token s.keyword :: front ++ [.node s.header.last]) ++
          (optional s.thenToken ++ [.node s.body]) := by simp [hitems]
      have hapart := hm.apart hitems (x := .node s.header.last) (y := .node s.body) (by simp) (by simp)
        (mem_singleton_self _) (mem_singleton_self _)
      exact ⟨⟨hsound.places.2, hapart⟩, Nat.le_refl _⟩
  refine ⟨hspec.1, fun c hc => ⟨(hm.children_apart.2 c (hs.mem_children (Or.inr hc))).2.1, Nat.le_trans ?_ hspec.2⟩⟩
  rw [Header.mem_nodes, hfront, mem_append, mem_singleton] at hc
  rcases hc with hc | hc
  · have hapart := hm.apart hitems (mem_cons_of_mem _ hc) mem_cons_self (mem_singleton_self c.range)
      (mem_singleton_self s.header.last.range)
    exact Nat.le_trans hapart (Nat.le_of_lt hsound.inside.nonempty)
  · cases hc
    exact Nat.le_refl _

/-- All tokens in front of the body stand in the header. -/
theorem sourceOnly_cases (hr : r ∈ m.sourceOnly tree) :
    r ∈ s.body.sourceOnly tree ∨ Span.Encloses ⟨m.range.start, l.headerStop tree⟩ r := by
  obtain ⟨-, hstart, -⟩ := hm.mem_sourceOnly.1 hr
  obtain ⟨front, hfront, hitems⟩ := hs.items_eq hleading
  have hstop := ((headerStop_spec hm hs hleading hlast hbody).2 s.header.last
    (Header.mem_nodes.2 (by simp [hfront]))).2
  obtain ⟨x, hx, hr⟩ := Node.mem_sourceOnly.1 hr
  obtain ⟨q, hq, hqr⟩ := hm.exists_range hx hr
  rw [hitems] at hx
  rcases mem_append.1 hx with hx | hx
  · have hapart := hm.apart hitems hx mem_cons_self hq (mem_singleton_self s.header.last.range)
    have := (hm.child (Node.mem_children.2 (hitems ▸ by simp : Item.node s.header.last ∈ m.items))).inside.nonempty
    have hle : r.stop ≤ l.headerStop tree := by omega
    exact Or.inr ⟨hstart, hle⟩
  simp only [mem_cons, mem_append, not_mem_nil, or_false, mem_optional] at hx
  rcases hx with rfl | ⟨i, hi, rfl⟩ | rfl
  · cases mem_singleton.1 hq
    exact Or.inr ⟨hstart, Nat.le_trans hqr.2 hstop⟩
  · obtain ⟨t, ht, -, rfl⟩ := hr
    have hitems' : m.items = (.token s.keyword :: front) ++ [.node s.header.last] ++ .token i :: [.node s.body] := by
      rw [hitems, hi]
      simp [optional]
    have hfind := hm.keywordBetween?_eq hitems' (by simp) mem_cons_self (hs.thenToken i hi).2 rfl hlast.outer
      hbody.outer
    refine Or.inr ⟨hstart, ?_⟩
    unfold headerStop
    simp only [hfind, ht]
    exact Nat.le_refl _
  · exact Or.inl hr

end Header

theorem last_on (hfilter : Option.Rel (Part.Of nodes) (s.header.filter.map Prod.snd) l.filter)
    (htarget : l.target.Of nodes s.header.target) : (l.filter.getD l.target).site.On s.header.last := by
  rw [Header.last]
  generalize s.header.filter.map Prod.snd = o, l.filter = o' at hfilter
  cases hfilter with
  | none => exact htarget.site
  | some hq => exact hq.site

end Loop

/-! ## Assignments -/

/-- The sides of an assignment stand apart.  Unless it is one by existence, it has no other tokens that JavaScript does
not have. -/
theorem Assignment.exists_sides {a : Assignment} (hm : m.Sound tree) (hfits : Fits tree m nodes (.assignment a)) :
    ∃ lhs rhs, a.lhs.Of nodes lhs ∧ a.rhs.Of nodes rhs ∧ lhs.range.Apart rhs.range ∧
      (a.isExistence = false → ∀ r ∈ m.sourceOnly tree, r ∈ lhs.sourceOnly tree ∨ r ∈ rhs.sourceOnly tree) := by
  have hperm := hfits.children_perm hm
  have hpairwise := hfits.pairwise_apart hm
  cases hfits with
  | @assignment v lhs rhs _ view _ _ _ partLhs partRhs _ _ isExistence =>
  obtain ⟨-, -, hk⟩ := assignment_view view
  have hne : m.kind ≠ .function := by rcases hk with hk | hk <;> rw [hk] <;> decide
  refine ⟨lhs, rhs, partLhs, partRhs, (pairwise_cons.1 (hpairwise hne)).1 rhs mem_cons_self, fun hplain r hr => ?_⟩
  have hassign : m.kind = .assign := by
    rw [AssignmentView.ofNode?, if_pos hk] at view
    cases view
    refine hk.resolve_right fun hk => ?_
    rw [hplain, hk] at isExistence
    cases isExistence
  obtain ⟨c, hc, hr⟩ := hm.sourceOnly_subset_children (by rw [hassign]; rfl) hr
  have hmem := (hperm hne).subset hc
  simp only [mem_cons, not_mem_nil, or_false] at hmem
  rcases hmem with rfl | rfl
  · exact Or.inl hr
  · exact Or.inr hr

/-! ## Functions -/

namespace Function

variable {f : Function}

/-- A name has no such tokens but the `@` of a member. -/
theorem kind_of_isName (hc : c.Sound tree) (hname : Syntax.isName c.kind = true) (hthis : c.kind ≠ .this)
    (hr : r ∈ c.sourceOnly tree) : c.kind = .thisMember := by
  by_contra hmember
  have hident : c.kind = .ident := by
    cases hk : c.kind <;> rw [hk] at hname hthis hmember <;> first | rfl | contradiction
  obtain ⟨d, hd, -⟩ := hc.sourceOnly_subset_children (by rw [hident]; rfl) hr
  rw [(children_of_isName hc hname).1] at hd
  cases hd

/-- What JavaScript does not have of a parameter stands in a member that it binds, or in its default value. -/
theorem param_sourceOnly {q : Param} (hc : c.Sound tree) (hp : Syntax.isParameter c.kind = true)
    (hq : q.Fits nodes (.ofNode c)) (hr : r ∈ c.sourceOnly tree) :
    q.isMember = true ∧ q.binding.Encloses r ∨ q.default?.isSome = true ∧ q.defaultRange.Encloses r := by
  rcases hc.param_cases hp with ⟨hname, hview⟩ | ⟨name, i, value, hitems, hi, hname, hview⟩ <;> rw [hview] at hq
  · have hmember := kind_of_isName hc hname hq.ne_this hr
    exact Or.inl ⟨by rw [hq.isMember, hmember]; rfl, hq.binding ▸ (hc.mem_sourceOnly.1 hr).2⟩
  · have hbounds := (hc.mem_sourceOnly.1 hr).2
    obtain ⟨x, hx, hr⟩ := Node.mem_sourceOnly.1 hr
    have hchild {d : Node} (hd : .node d ∈ c.items) : d.Sound tree := hc.child (Node.mem_children.2 hd)
    rw [hitems] at hx hchild
    simp only [mem_cons, not_mem_nil, or_false] at hx
    rcases hx with rfl | rfl | rfl
    · have hsound := hchild (d := name) (by simp)
      have hmember := kind_of_isName hsound hname hq.ne_this hr
      exact Or.inl ⟨by rw [hq.isMember, hmember]; rfl, hq.binding ▸ (hsound.mem_sourceOnly.1 hr).2⟩
    · cases (Tree.isSuspect_of_mem hr).symm.trans (hi ▸ rfl : (tree.kindAt i).isSuspect = false)
    · have hsome : q.default?.isSome = true := by
        have hrel := hq.default?
        generalize q.default? = o at hrel ⊢
        cases hrel
        rfl
      have hsplit : c.items = [.node name, .token i] ++ [.node value] := hitems
      have hle := hc.apart hsplit mem_cons_self mem_cons_self (mem_singleton_self name.range)
        (mem_singleton_self value.range)
      refine Or.inr ⟨hsome, ?_⟩
      rw [hq.defaultRange]
      exact ⟨Nat.le_trans hle ((hchild (by simp)).mem_sourceOnly.1 hr).2.1, hbounds.2⟩

/-- A function from left to right: the parameters `cs`, the arrow and the body. -/
structure Stands (tree : Tree) (m : Node) (nodes : List Node) (f : Function) (cs : List Node) : Prop where
  params : List.Forall₂ (fun c => Param.Fits nodes (.ofNode c)) cs f.params
  param : ∀ c ∈ cs, c ∈ m.descendants ∧ Syntax.isParameter c.kind = true
  pairwise : cs.Pairwise fun c d => c.range.Apart d.range
  paramList : ∀ r ∈ f.paramList, ∃ list ∈ m.children, list.range = r
  before : ∀ c ∈ cs, c.range.stop ≤ f.arrow.range.start
  arrow : f.arrow ∈ tree.tokens ∧ f.arrow.isSignificant = true
  within : m.range.start ≤ f.arrow.range.start ∧ f.arrow.range.start < f.arrow.range.stop ∧
    f.arrow.range.stop ≤ m.range.stop
  body : ∀ q ∈ f.body, ∃ b, q.Of nodes b ∧ b.kind = .block ∧ f.arrow.range.stop ≤ b.range.start
  sourceOnly : ∀ r ∈ m.sourceOnly tree, (∃ c ∈ cs, r ∈ c.sourceOnly tree) ∨
    f.isBound = false ∧ f.arrow.range.Encloses r ∨ ∃ q ∈ f.body, ∃ b, q.Of nodes b ∧ r ∈ b.sourceOnly tree

theorem exists_stands (hm : m.Sound tree) (hfits : Fits tree m nodes (.function f)) :
    ∃ cs, Stands tree m nodes f cs := by
  cases hfits with
  | @function v _ view arrow paramList params partBody =>
  have hk := function_kind view
  obtain ⟨s, hs⟩ := hm.exists_functionShape hk
  cases (hs.view hk).symm.trans view
  have hitems := hs.items
  rw [FunctionShape.items] at hitems
  have htoken : tree.token? s.arrow = some f.arrow := arrow
  have hkind : tree.kindAt s.arrow = f.arrow.kind := by rw [Tree.kindAt, htoken]; rfl
  have hsig : f.arrow.isSignificant = true :=
    Token.isSignificant_of_kind rfl (by rcases hs.arrow with h | h <;> rw [← hkind, h] <;> rfl)
  have hrange := Tree.mem_ranges htoken hsig
  have hlist (list : Node) (hlist : s.paramList = some list) :
      list ∈ m.children ∧ list.range.stop ≤ f.arrow.range.start := by
    rw [hlist, append_assoc] at hitems
    exact ⟨by simp [Node.mem_children, hitems],
      hm.apart hitems mem_cons_self mem_cons_self (mem_singleton_self _) hrange⟩
  refine ⟨s.paramList.toList.flatMap Node.children, ?_, ?_, ?_, ?_, ?_, ⟨mem_of_getElem? htoken, hsig⟩, ?_, ?_, ?_⟩
  · have hparams : (s.view tree).params = (s.paramList.toList.flatMap Node.children).map .ofNode := by
      unfold FunctionView.params FunctionShape.view
      cases s.paramList <;> simp
    rw [hparams] at params
    exact forall₂_map_left_iff.1 params
  · intro c hc
    obtain ⟨list, hmem, hc⟩ := mem_flatMap.1 hc
    have hchild := (hlist list (Option.mem_toList.1 hmem)).1
    exact ⟨Node.descendants_child (Node.mem_descendants_of_child hchild) hc,
      (hm.child hchild).isParameter (hs.paramList list (Option.mem_toList.1 hmem)) hc⟩
  · cases hl : s.paramList with
    | none => exact .nil
    | some list =>
      rw [Option.toList_some, flatMap_singleton]
      exact (hm.child (hlist list hl).1).children_apart.1.imp Or.inl
  · intro r hr
    rw [paramList, Option.mem_map] at hr
    obtain ⟨list, hmem, rfl⟩ := hr
    exact ⟨list, (hlist list hmem).1, rfl⟩
  · intro c hc
    obtain ⟨list, hmem, hc⟩ := mem_flatMap.1 hc
    obtain ⟨hchild, hle⟩ := hlist list (Option.mem_toList.1 hmem)
    exact Nat.le_trans ((hm.child hchild).children_apart.2 c hc).2.2 hle
  · exact (hm.own_apart (by simp [Node.mem_ownTokens, hitems]) htoken hsig).1
  · intro q hq
    rw [Option.mem_def.1 hq] at partBody
    obtain ⟨b, hb, hof⟩ := exists_of_rel_some partBody
    have hb : s.body = some b := hb
    rw [hb] at hitems
    exact ⟨b, hof, hs.body b hb, hm.apart hitems (mem_append_right _ mem_cons_self) mem_cons_self hrange
      (mem_singleton_self _)⟩
  · intro r hr
    obtain ⟨x, hx, hr⟩ := Node.mem_sourceOnly.1 hr
    rw [hitems] at hx
    simp only [mem_append, mem_singleton, Option.mem_toList, Option.map_eq_some_iff] at hx
    rcases hx with (⟨list, hl, rfl⟩ | rfl) | ⟨b, hb, rfl⟩
    · obtain ⟨c, hc, hr⟩ := (hm.child (hlist list hl).1).sourceOnly_subset_children
        (by rw [hs.paramList list hl]; rfl) hr
      exact Or.inl ⟨c, mem_flatMap.2 ⟨list, Option.mem_toList.2 hl, hc⟩, hr⟩
    · have hsuspect := Tree.isSuspect_of_mem hr
      obtain ⟨t, ht, -, rfl⟩ := hr
      cases ht.symm.trans htoken
      refine Or.inr (Or.inl ⟨?_, Nat.le_refl _, Nat.le_refl _⟩)
      rcases hs.arrow with h | h
      · rw [isBound, ← hkind, h]
        rfl
      · rw [h] at hsuspect
        cases hsuspect
    · have hrel : Option.Rel (Part.Of _) s.body f.body := partBody
      rw [hb] at hrel
      generalize f.body = o at hrel ⊢
      cases hrel with
      | some hq => exact Or.inr (Or.inr ⟨_, rfl, b, hq, hr⟩)

end Function

/-! ## Expressions -/

theorem ownToken?_eq_some {kind : Kind} {t : Token} (h : ownToken? tree n kind = some t) :
    ∃ i ∈ n.ownTokens, tree.token? i = some t ∧ t.kind = kind := by
  have hkind := find?_some h
  obtain ⟨i, hi, ht⟩ := mem_filterMap.1 (mem_of_find?_eq_some h)
  exact ⟨i, hi, ht, beq_iff_eq.1 hkind⟩

theorem isLayout_of_operator? {k : Kind} {text out : String} (h : operator? k text = some out) :
    k.isLayout = false := by
  cases k <;> first
    | rfl
    | simp [operator?] at h

/-- A sign and its operand. -/
theorem exists_operand (hn : n.Sound tree) (hk : n.kind = .prefixExpr) :
    ∃ i c t, n.items = [.token i, .node c] ∧ tree.kindAt i ∈ [Kind.bang, .notKw, .operator] ∧
      tree.token? i = some t ∧ t.range.stop ≤ c.range.start := by
  have hrows := hn.rows
  rw [hk, Syntax.production] at hrows
  obtain ⟨_, _, hitems, hsign, hoperand⟩ := hrows.mul
  obtain ⟨i, rfl, hi⟩ := hsign.word
  obtain ⟨c, rfl, -⟩ := hoperand.node
  have hlayout : (tree.kindAt i).isLayout = false := by
    simp only [mem_cons, not_mem_nil, or_false] at hi
    rcases hi with h | h | h <;> rw [h] <;> rfl
  obtain ⟨t, ht, -, hreach⟩ := tree.exists_token hlayout
  have htiled := hn.tiled
  rw [Forest.ranges_eq_flatMap, show n.elements.items = _ from hitems] at htiled
  simp [Item.ranges, hreach, Tiled] at htiled
  exact ⟨i, c, t, hitems, hi, ht, htiled.2.2.1⟩

/-- Tokens are respelled in place; `not` goes up to its operand. -/
theorem respelled_cases (hn : n.Sound tree) {x : Span × String} (hx : x ∈ respelled tree n) :
    ∃ i ∈ n.ownTokens, ∃ t, tree.token? i = some t ∧ t.isSignificant = true ∧
      (x.1 = t.range ∨ ∃ c, n.children = [c] ∧ t.range.stop ≤ c.range.start ∧ x.1 = ⟨t.range.start, c.range.start⟩ ∧
        respelled tree n = [x]) := by
  have hall := hx
  unfold respelled at hx
  split at hx
  · obtain ⟨t, ht, hx⟩ := mem_filterMap.1 hx
    obtain ⟨i, hi, ht⟩ := mem_filterMap.1 ht
    obtain ⟨text, htext, rfl⟩ := Option.map_eq_some_iff.1 hx
    exact ⟨i, hi, t, ht, Token.isSignificant_of_kind rfl (isLayout_of_operator? htext), Or.inl rfl⟩
  · rename_i hkind
    obtain ⟨t, hown, rfl⟩ := mem_map.1 hx
    obtain ⟨j, hj, ht, hk⟩ := ownToken?_eq_some (Option.mem_toList.1 hown)
    obtain ⟨i, c, u, hitems, -, hu, hle⟩ := exists_operand hn hkind
    have hi := hj
    rw [Node.ownTokens_eq hitems] at hi
    cases mem_singleton.1 hi
    cases hu.symm.trans ht
    have hchildren : n.children = [c] := Node.children_eq hitems
    refine ⟨j, hj, t, ht, Token.isSignificant_of_kind hk rfl, Or.inr ⟨c, hchildren, hle, ?_, ?_⟩⟩
    · simp [hchildren]
    · simp [respelled, hkind, Option.mem_toList.1 hown]
  iterate 2
    · obtain ⟨t, ht, rfl⟩ := mem_map.1 hx
      obtain ⟨i, hi, ht, hk⟩ := ownToken?_eq_some (Option.mem_toList.1 ht)
      exact ⟨i, hi, t, ht, Token.isSignificant_of_kind hk rfl, Or.inl rfl⟩
  · cases hx

theorem respelled_spares (hn : n.Sound tree) {x y : Span × String} (hx : x ∈ respelled tree n)
    (hy : y ∈ respelled tree n) : x.1.Spares y.1 := by
  have hself : x = y → x.1.Spares y.1 := fun h => h ▸ Or.inr ⟨Nat.le_refl _, Nat.le_refl _⟩
  obtain ⟨i, -, t, ht, hts, heq | ⟨_, -, -, -, hall⟩⟩ := respelled_cases hn hx
  · obtain ⟨j, -, u, hu, hus, heq' | ⟨_, -, -, -, hall⟩⟩ := respelled_cases hn hy
    · rw [heq, heq']
      rcases hn.ordered.apart (mem_of_getElem? hu) (mem_of_getElem? ht) hus hts with rfl | hapart
      · exact Or.inr ⟨Nat.le_refl _, Nat.le_refl _⟩
      · exact Or.inl hapart
    · exact hself (mem_singleton.1 (hall ▸ hx))
  · exact hself (mem_singleton.1 (hall ▸ hy)).symm

theorem ownToken?_of_head {i : Nat} {rest : List Item} (hitems : n.items = .token i :: rest) {t : Token}
    (ht : tree.token? i = some t) : ownToken? tree n t.kind = some t := by
  simp [ownToken?, Node.ownTokens_eq hitems, Item.token?, ht]

theorem isSome_operator? {k : Kind} (hk : k ∈ [Kind.orKw, .andKw, .isKw, .isntKw, .operator]) {t : Token}
    (ht : t.kind = k) (hs : t.isSourceOnly tree.text = true) :
    (operator? k (Text.slice tree.text t.range)).isSome = true := by
  simp only [mem_cons, not_mem_nil, or_false] at hk
  rcases hk with rfl | rfl | rfl | rfl | rfl
  iterate 4 rfl
  · simp only [Token.isSourceOnly, ht, Bool.or_eq_true, beq_iff_eq] at hs
    rcases hs with hs | hs <;> rw [hs] <;> rfl

section Respelled

variable (hn : n.Sound tree) {i : Nat} (hi : i ∈ n.ownTokens) {t : Token} (ht : tree.token? i = some t)
  (hs : t.isSourceOnly tree.text = true)
include hn hi ht hs

theorem own_atSign (hk : n.kind = .this ∨ n.kind = .thisMember) : ownToken? tree n .atSign = some t := by
  have hsuspect := Token.isSuspect_of_isSourceOnly hs
  have hkind : tree.kindAt i = t.kind := by rw [Tree.kindAt, ht]; rfl
  have hrows := hn.rows
  rcases hk with hk | hk <;> rw [hk, Syntax.production] at hrows
  · obtain ⟨j, hitems, hj⟩ := hrows.word
    rw [Node.ownTokens_eq hitems] at hi
    cases mem_singleton.1 hi
    simp only [hkind, mem_cons, not_mem_nil, or_false] at hj
    rcases hj with hj | hj
    · rw [hj] at hsuspect
      cases hsuspect
    · exact hj ▸ ownToken?_of_head hitems ht
  · obtain ⟨_, _, hitems, hat, hname⟩ := hrows.mul
    obtain ⟨j, rfl, hj⟩ := hat.word
    obtain ⟨k, rfl, hk⟩ := hname.word
    rw [Node.ownTokens_eq hitems] at hi
    rcases mem_cons.1 hi with rfl | hi
    · exact (hkind.symm.trans (mem_singleton.1 hj)) ▸ ownToken?_of_head hitems ht
    · cases mem_singleton.1 hi
      rw [← hkind, mem_singleton.1 hk] at hsuspect
      cases hsuspect

/-- Of the signs only `not` is spelled differently. -/
theorem own_notKw (hsigns : n.Signs tree) (hk : n.kind = .prefixExpr) :
    ownToken? tree n .notKw = some t ∧ ∃ c, n.children = [c] ∧ t.range.stop ≤ c.range.start := by
  obtain ⟨j, c, u, hitems, hj, hu, hle⟩ := exists_operand hn hk
  rw [Node.ownTokens_eq hitems] at hi
  cases mem_singleton.1 hi
  cases ht.symm.trans hu
  have hkind : tree.kindAt i = t.kind := by rw [Tree.kindAt, ht]; rfl
  refine ⟨?_, c, Node.children_eq hitems, hle⟩
  simp only [hkind, mem_cons, not_mem_nil, or_false] at hj
  rcases hj with hj | hj | hj
  · have hsuspect := Token.isSuspect_of_isSourceOnly hs
    rw [hj] at hsuspect
    cases hsuspect
  · exact hj ▸ ownToken?_of_head hitems ht
  · obtain ⟨k, rest, hitems', hsign⟩ := hsigns n n.self_mem_descendants hk
    cases hitems.symm.trans hitems'
    simp only [Token.isSourceOnly, hj] at hs
    rcases hsign t ht hj with h | h <;> rw [h] at hs <;> cases hs

theorem own_operator (hk : n.kind = .binaryExpr) :
    ∃ text, operator? t.kind (Text.slice tree.text t.range) = some text := by
  have hkind : tree.kindAt i = t.kind := by rw [Tree.kindAt, ht]; rfl
  have hrows := hn.rows
  rw [hk, Syntax.production] at hrows
  obtain ⟨_, _, hitems, hfront, hright⟩ := hrows.mul
  obtain ⟨_, _, rfl, hleft, hword⟩ := hfront.mul
  obtain ⟨a, rfl, -⟩ := hleft.node
  obtain ⟨j, rfl, hj⟩ := hword.word
  obtain ⟨b, rfl, -⟩ := hright.node
  rw [Node.ownTokens_eq hitems] at hi
  cases mem_singleton.1 hi
  exact Option.isSome_iff_exists.1 (isSome_operator? (hkind ▸ hj) rfl hs)

/-- An expression respells all tokens of its own that JavaScript does not have. -/
theorem exists_respelled (hsigns : n.Signs tree) (plain : isPlain n.kind = true)
    (view : AssignmentView.ofNode? n = none) : ∃ x ∈ respelled tree n, x.1.Encloses t.range := by
  have hself : t.range.Encloses t.range := ⟨Nat.le_refl _, Nat.le_refl _⟩
  have hsuspect := hn.kind_of_own hi ⟨t, ht, hs, rfl⟩
  cases hk : n.kind <;> rw [hk] at hsuspect plain <;> first | (cases hsuspect; done) | (cases plain; done) | skip
  case this => exact ⟨(t.range, "this"), by simp [respelled, hk, own_atSign hn hi ht hs (Or.inl hk)], hself⟩
  case thisMember => exact ⟨(t.range, "this."), by simp [respelled, hk, own_atSign hn hi ht hs (Or.inr hk)], hself⟩
  case prefixExpr =>
    obtain ⟨hown, c, hchildren, hle⟩ := own_notKw hn hi ht hs hsigns hk
    exact ⟨(⟨t.range.start, c.range.start⟩, "!"), by simp [respelled, hk, hown, hchildren],
      Nat.le_refl _, hle⟩
  case binaryExpr =>
    obtain ⟨text, htext⟩ := own_operator hn hi ht hs hk
    refine ⟨(t.range, text), ?_, hself⟩
    simp only [respelled, hk]
    exact mem_filterMap.2 ⟨t, mem_filterMap.2 ⟨i, hi, ht⟩, by rw [htext]; rfl⟩
  case existsAssign =>
    rw [AssignmentView.ofNode?, if_pos (Or.inr hk)] at view
    cases view

end Respelled

end Javascript

end Respell
