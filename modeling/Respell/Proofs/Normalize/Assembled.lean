import Respell.Proofs.Patch.Script
import Respell.Proofs.Tree.Shape
import Respell.Normalize

/-!
The patchers of a tree without faults.

Every node of such a tree becomes a patcher, whose parts are the patchers of the nodes that the construct
needs, in the order in which it will patch them (`exists_patcher`).  Preparing changes the phases only
(`exists_prepared`).
-/

namespace Respell

open List

variable {tree : Tree}

/-! ## Results by number -/

variable {κ : Type}

theorem Forest.results_keys (f : Node → Results κ → Except PatchError (Patcher κ)) (forest : Forest Label) :
    (forest.results f).map Prod.fst = forest.labels.map Label.id := by
  induction forest with
  | nil => rfl
  | token i rest ih => exact ih
  | node l inside rest ihInside ih => simp [results, labels, ihInside, ih]

theorem Forest.nodes_ids_sublist (forest : Forest Label) :
    (forest.nodes.map fun c => c.id).Sublist (forest.labels.map Label.id) := by
  induction forest with
  | nil => exact .slnil
  | token i rest ih => exact ih
  | node l inside rest _ ih =>
    rw [nodes, labels, map_cons, map_cons, map_append]
    exact (ih.trans (sublist_append_right _ _)).cons_cons l.id

theorem Forest.mem_results (f : Node → Results κ → Except PatchError (Patcher κ)) {forest : Forest Label}
    {c : Node} (hc : c ∈ forest.descendants) : (c.id, c.fold f) ∈ forest.results f := by
  induction forest with
  | nil => cases hc
  | token i rest ih => exact ih hc
  | node l inside rest ihInside ih =>
    rw [descendants, mem_cons, mem_append] at hc
    rw [results, mem_cons, mem_append]
    rcases hc with rfl | hc | hc
    · exact Or.inl rfl
    · exact Or.inr (Or.inl (ihInside hc))
    · exact Or.inr (Or.inr (ih hc))

theorem Forest.head?_results (f : Node → Results κ → Except PatchError (Patcher κ)) (forest : Forest Label) :
    (forest.results f).head? = forest.nodes.head?.map fun c => (c.id, c.fold f) := by
  induction forest with
  | nil => rfl
  | token i rest ih => exact ih
  | node l inside rest _ _ => rfl

/-- A key that occurs once finds its value. -/
theorem lookup_eq_some_of_mem {α : Type} {l : List (Nat × α)} (hl : (l.map Prod.fst).Nodup) {k : Nat} {a : α}
    (h : (k, a) ∈ l) : l.lookup k = some a := by
  induction l with
  | nil => cases h
  | cons p l ih =>
    obtain ⟨hp, hl⟩ := nodup_cons.1 hl
    rcases mem_cons.1 h with rfl | h
    · simp
    · have hne : k ≠ p.1 := fun heq => hp (heq ▸ mem_map_of_mem (f := Prod.fst) h)
      rw [lookup_cons, beq_eq_false_iff_ne.2 hne]
      exact ih hl h

/-- A node below is found under its number. -/
theorem Node.Sound.lookup_results {n c : Node} (h : n.Sound tree) (hc : c ∈ n.elements.descendants)
    (f : Node → Results κ → Except PatchError (Patcher κ)) :
    (n.elements.results f).lookup c.id = some (c.fold f) := by
  refine lookup_eq_some_of_mem ?_ (Forest.mem_results f hc)
  have hids := h.ids
  rw [Node.toForest, Forest.labels, Forest.labels, append_nil, map_cons] at hids
  rw [Forest.results_keys]
  exact (nodup_cons.1 hids).2

namespace Normalize

/-! ## Patchers of nodes -/

/-- The part at a place. -/
def partAt (tree : Tree) (place : Nat) (n : Node) : Part := ⟨place, .ofNode tree n⟩

/-- What a construct patches, in this order. -/
def partsOf (tree : Tree) (n : Node) : List Node :=
  match LoopView.ofNode? tree n, (ConditionalView.ofNode? tree n).filter (·.isTrailing) with
  | some v, _ => v.key.toList ++ v.value.toList ++ v.target.toList ++ v.filter.toList ++ v.body.toList
  | none, some v => v.condition.toList ++ v.consequent.toList
  | none, none => n.children

/-- The loop of a view, its parts in this order. -/
def loopOf (tree : Tree) (v : LoopView) (target body : Node) : Loop :=
  let rest := v.key.toList.length + v.value.toList.length
  { key := v.key.map (partAt tree 0)
    value := v.value.map (partAt tree v.key.toList.length)
    target := partAt tree rest target
    filter := v.filter.map (partAt tree (rest + 1))
    body := partAt tree (rest + 1 + v.filter.toList.length) body }

/-- The construct of a node whose parts stand in this order. -/
def constructOf (tree : Tree) (n : Node) : Construct :=
  match LoopView.ofNode? tree n, (ConditionalView.ofNode? tree n).filter (·.isTrailing) with
  | some v, _ =>
    match v.target, v.body with
    | some target, some body => .loop (loopOf tree v target body)
    | _, _ => .plain
  | none, some v =>
    match v.condition, v.consequent with
    | some condition, some body => .trailingConditional (partAt tree 0 condition) (partAt tree 1 body)
    | _, _ => .plain
  | none, none => .plain

/-- The patcher, and all below it, are those of the node, in the given phase. -/
inductive Shows (tree : Tree) (phase : Phase) : Node → Patcher Construct → Prop
  | intro {n : Node} {p : Patcher Construct} (site : p.site = .ofNode tree n) (reached : p.phase = phase)
    (construct : p.construct = constructOf tree n.unwrapParens)
    (parts : List.Forall₂ (Shows tree phase) (partsOf tree n.unwrapParens) p.parts) : Shows tree phase n p

/-- A node is a loop, a conditional that starts with its body, or neither. -/
theorem construct_cases {n : Node} (hn : n.Sound tree) :
    (∃ s : LoopShape, n.kind = .forExpr ∧ s.Of tree n) ∨
      (∃ body i condition, n.kind = .ifExpr ∧ n.items = [.node body, .token i, .node condition] ∧
        tree.kindAt i = .ifKw ∧ body.kind = .block ∧ LoopView.ofNode? tree n = none ∧
        (ConditionalView.ofNode? tree n).filter (·.isTrailing) = some
          { ifToken := some i, isTrailing := true, condition := some condition, consequent := some body }) ∨
      (LoopView.ofNode? tree n = none ∧ (ConditionalView.ofNode? tree n).filter (·.isTrailing) = none) := by
  by_cases hf : n.kind = .forExpr
  · obtain ⟨s, hs⟩ := hn.exists_loopShape hf
    exact Or.inl ⟨s, hf, hs⟩
  have hloop : LoopView.ofNode? tree n = none := if_neg hf
  by_cases hi : n.kind = .ifExpr
  · rcases hn.conditional_cases hi with ⟨v, hview, hv⟩ | ⟨body, i, condition, hitems, hif, hblock, hview⟩
    · exact Or.inr (Or.inr ⟨hloop, by simp [hview, hv]⟩)
    · refine Or.inr (Or.inl ⟨body, i, condition, hi, hitems, hif, hblock, hloop, ?_⟩)
      rw [hview, Option.filter_some, if_pos rfl]
  · exact Or.inr (Or.inr ⟨hloop, by simp [ConditionalView.ofNode?, hi]⟩)

/-! ## Assembling -/

section Assembly

variable {n : Node} {results : Results Construct} {pick : Node → Patcher Construct}

theorem part_eq {c : Node} (hc : results.lookup c.id = some (.ok (pick c)) ∧ (pick c).site = .ofNode tree c)
    (ps : List (Patcher Construct)) :
    Assembly.part results c ps = .ok (partAt tree ps.length c, ps ++ [pick c]) := by
  unfold Assembly.part partAt
  rw [hc.1, ← hc.2]
  rfl

theorem part?_eq {o : Option Node}
    (ho : ∀ c ∈ o, results.lookup c.id = some (.ok (pick c)) ∧ (pick c).site = .ofNode tree c)
    (ps : List (Patcher Construct)) :
    Assembly.part? results o ps = .ok (o.map (partAt tree ps.length), ps ++ o.toList.map pick) := by
  cases o with
  | none => exact congrArg (fun x => Except.ok (none, x)) (append_nil ps).symm
  | some c =>
    have := part_eq (ho c rfl) ps
    show (some <$> Assembly.part results c) ps = _
    rw [map_eq_pure_bind]
    show (Assembly.part results c ps).bind _ = _
    rw [this]
    rfl

theorem forM_part_eq {cs : List Node}
    (hcs : ∀ c ∈ cs, results.lookup c.id = some (.ok (pick c)) ∧ (pick c).site = .ofNode tree c)
    (ps : List (Patcher Construct)) :
    (cs.forM fun c => discard (Assembly.part results c)) ps = .ok ((), ps ++ cs.map pick) := by
  induction cs generalizing ps with
  | nil => exact congrArg (fun x => Except.ok ((), x)) (append_nil ps).symm
  | cons c cs ih =>
    obtain ⟨hc, hcs⟩ := forall_mem_cons.1 hcs
    have hpart := part_eq hc ps
    have hrest := ih hcs (ps ++ [pick c])
    rw [append_assoc, singleton_append] at hrest
    show (discard (Assembly.part results c) ps).bind _ = _
    have hdiscard : (discard (Assembly.part results c) : Assembly Construct PUnit) ps = .ok ((), ps ++ [pick c]) := by
      show (Assembly.part results c ps).map _ = _
      rw [hpart]
      rfl
    rw [hdiscard]
    exact hrest

theorem bind_eq {α β : Type} {m : Assembly Construct α} {f : α → Assembly Construct β} {a : α}
    {ps ps' : List (Patcher Construct)} (h : m ps = .ok (a, ps')) : (m >>= f) ps = f a ps' := by
  show (m ps).bind _ = _
  rw [h]
  rfl

/-- The construct of a node, given the patchers of its children. -/
theorem construct_eq (hn : n.Sound tree)
    (hpick : ∀ c ∈ n.children, results.lookup c.id = some (.ok (pick c)) ∧ (pick c).site = .ofNode tree c) :
    construct tree n results [] = .ok (constructOf tree n, (partsOf tree n).map pick) := by
  unfold construct constructOf partsOf
  rcases construct_cases hn with ⟨s, hf, hs⟩ | ⟨body, i, condition, -, hitems, -, -, hloop, hview⟩ | ⟨hloop, hview⟩
  · have hpart : ∀ c ∈ s.header.nodes, _ := fun c hc => hpick c (hs.mem_children (Or.inr hc))
    obtain ⟨v, hview, -, -, htarget, hbody, hkey, hvalue, hfilter⟩ := hs.exists_view hf
    simp only [hview, htarget, hbody, Assembly.need, pure_bind]
    rw [bind_eq (part?_eq (fun c hc => hpart c (hkey c hc)) []),
      bind_eq (part?_eq (fun c hc => hpart c (hvalue c hc)) _),
      bind_eq (part_eq (hpart _ s.header.target_mem) _),
      bind_eq (part?_eq (fun c hc => hpart c (hfilter c hc)) _),
      bind_eq (part_eq (hpick _ (hs.mem_children (Or.inl rfl))) _)]
    show Except.ok (_, _) = _
    simp [loopOf, Nat.add_assoc, Nat.add_comm 1]
  · have hbody : body ∈ n.children := Node.mem_children.2 (by simp [hitems])
    have hcondition : condition ∈ n.children := Node.mem_children.2 (by simp [hitems])
    simp only [hloop, hview, Assembly.need, pure_bind]
    rw [bind_eq (part_eq (hpick _ hcondition) []), bind_eq (part_eq (hpick _ hbody) _)]
    rfl
  · simp only [hloop, hview]
    exact bind_eq (forM_part_eq hpick [])

end Assembly

theorem mem_children_of_mem_partsOf {n c : Node} (hn : n.Sound tree) (hc : c ∈ partsOf tree n) : c ∈ n.children := by
  unfold partsOf at hc
  rcases construct_cases hn with ⟨s, hf, hs⟩ | ⟨body, i, condition, -, hitems, -, -, hloop, hview⟩ | ⟨hloop, hview⟩
  · obtain ⟨v, hview, -⟩ := hs.exists_view hf
    simp only [hview] at hc
    exact hs.mem_children_of_view hf hview hc
  · rw [Node.mem_children, hitems]
    simp only [hloop, hview, Option.toList_some] at hc
    simp at hc ⊢
    exact hc.symm
  · simpa only [hloop, hview] using hc

theorem exists_patcher (n : Node) (hn : n.Sound tree) :
    ∃ p, n.fold (Assembly.patcher tree (construct tree)) = .ok p ∧ Shows tree .constructed n p := by
  induction n using Node.descendants_induction with
  | step n ih =>
    have hchild : ∀ c ∈ n.children, ∃ p, c.fold (Assembly.patcher tree (construct tree)) = .ok p ∧
        Shows tree .constructed c p := fun c hc => ih c (Node.child_mem_descendants hc) (hn.child hc)
    by_cases hk : n.kind = .parenExpr
    · -- Parentheses become the patcher of what they hold.
      obtain ⟨c, hchildren, hc, hunwrap, -, -⟩ := hn.paren hk
      obtain ⟨p, hp, hsite, hphase, hconstruct, hparts⟩ := hchild c (by simp [hchildren])
      have hhead : (n.elements.results (Assembly.patcher tree (construct tree))).head? = some (c.id, .ok p) := by
        rw [Forest.head?_results, show n.elements.nodes = [c] from hchildren, ← hp]
        rfl
      refine ⟨p.withOuter n.toLabel, ?_, ?_⟩
      · simp only [Node.fold, Assembly.patcher, hk, if_true, hhead]
        rfl
      · obtain ⟨site, phase, k, parts⟩ := p
        refine .intro ?_ hphase (hunwrap ▸ hconstruct) (hunwrap ▸ hparts)
        simp only [Patcher.site] at hsite
        simp only [Patcher.withOuter, Patcher.site, hsite, Site.ofNode, hunwrap]
    · have : Nonempty (Patcher Construct) := ⟨.new (.ofNode tree n) .plain []⟩
      choose! pick hpick using hchild
      have hsite : ∀ c ∈ n.children, (pick c).site = .ofNode tree c := fun c hc => by
        obtain ⟨-, ⟨h, -, -, -⟩⟩ := hpick c hc
        exact h
      have hconstruct := construct_eq hn fun c hc =>
        ⟨(hn.lookup_results (Node.child_mem_descendants hc) _).trans (congrArg some (hpick c hc).1), hsite c hc⟩
      refine ⟨.new (.ofNode tree n) (constructOf tree n) ((partsOf tree n).map pick), ?_, ?_⟩
      · simp only [Node.fold, Assembly.patcher, hk, if_false, StateT.run]
        rw [hconstruct]
        rfl
      · refine .intro rfl rfl ?_ ?_
        · rw [Node.unwrapParens_of_ne hk]
          rfl
        · rw [Node.unwrapParens_of_ne hk]
          show List.Forall₂ _ _ ((partsOf tree n).map pick)
          rw [forall₂_map_right_iff, forall₂_same]
          exact fun c hc => (hpick c (mem_children_of_mem_partsOf hn hc)).2

/-! ## Preparing -/

/-- Preparing a tree of patchers moves all of them to the next phase and does nothing else. -/
theorem exists_prepared (depth : Nat) (n : Node) (p : Patcher Construct) (g : Context)
    (hp : Shows tree .constructed n p) (hdepth : p.height ≤ depth) :
    ∃ p', Patcher.callWithin hooks depth .prepare p g = ⟨.ok (), p', g⟩ ∧ Shows tree .prepared n p' := by
  induction depth generalizing n p with
  | zero =>
    rw [Patcher.height_eq] at hdepth
    omega
  | succ depth ih =>
    obtain ⟨hsite, hphase, hconstruct, hparts⟩ := hp
    have hheight : ∀ q ∈ p.parts, q.height ≤ depth := fun q hq => by
      have := Patcher.height_lt_of_mem hq
      omega
    have hall : (∀ q ∈ p.parts, (Patcher.callWithin hooks depth .prepare q g).result = .ok () ∧
          (Patcher.callWithin hooks depth .prepare q g).context = g) ∧
        List.Forall₂ (Shows tree .prepared) (partsOf tree n.unwrapParens)
          (p.parts.map fun q => (Patcher.callWithin hooks depth .prepare q g).patcher) := by
      generalize partsOf tree n.unwrapParens = nodes at hparts ⊢
      generalize p.parts = parts at hparts hheight ⊢
      induction hparts with
      | nil => exact ⟨fun _ h => (by cases h), .nil⟩
      | cons hq _ ihq =>
        obtain ⟨h1, h2⟩ := forall_mem_cons.1 hheight
        obtain ⟨q', hcall, hq'⟩ := ih _ _ hq h1
        obtain ⟨h3, h4⟩ := ihq h2
        refine ⟨forall_mem_cons.2 ⟨by rw [hcall]; exact ⟨rfl, rfl⟩, h3⟩, .cons ?_ h4⟩
        simp only [hcall]
        exact hq'
    have hrun := @Script.run_forM_callPart _ _ (Patcher.callWithin hooks depth) .prepare g [] p.parts p
      (nil_append _).symm hall.1
    rw [nil_append, length_nil, ← range_eq_range'] at hrun
    refine ⟨(p.withParts (p.parts.map fun q =>
      (Patcher.callWithin hooks depth .prepare q g).patcher)).withPhase .prepared, ?_, ?_⟩
    · have hscript : (Patcher.prepareScript hooks p).run (Patcher.callWithin hooks depth) p g =
          ⟨.ok (), p.withParts (p.parts.map fun q =>
            (Patcher.callWithin hooks depth .prepare q g).patcher), g⟩ := by
        show (((List.range p.parts.length).forM fun i => Script.callPart i .prepare) >>= fun _ => _).run _ p g = _
        rw [Script.run_bind, hrun]
        rfl
      rw [Patcher.callWithin]
      simp only [hphase, if_true, hscript]
      rfl
    · obtain ⟨site, phase, k, parts⟩ := p
      exact .intro hsite rfl hconstruct hall.2

end Normalize

end Respell
