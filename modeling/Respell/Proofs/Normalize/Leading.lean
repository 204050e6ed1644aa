import Respell.Proofs.Normalize.Refinement

/-!
Programs that normalizing leaves alone.

If every header stands in front of its body and every loop value is made of names and arrays, each construct patches its
parts and does nothing of its own: a loop finds its keyword at its start, takes no name and moves nothing.  So the
context after the run is the one before it, without edits and without new names (`run_leading`).
-/

namespace Respell

open List

/-- Every loop and conditional has its header in front of its body, and loop values are made of names and arrays. -/
structure Tree.Leading (tree : Tree) : Prop where
  loops : ∀ n ∈ tree.root.descendants, ∀ v ∈ LoopView.ofNode? tree n,
    ∀ target ∈ v.target, ∀ body ∈ v.body, target.range.start ≤ body.range.start
  values : ∀ n ∈ tree.root.descendants, ∀ v ∈ LoopView.ofNode? tree n,
    ∀ value ∈ v.value, ∀ c ∈ value.descendants, c.kind = .ident ∨ c.kind = .array
  conditionals : ∀ n ∈ tree.root.descendants, ∀ v ∈ ConditionalView.ofNode? tree n, v.isTrailing = false

instance (tree : Tree) : Decidable tree.Leading :=
  decidable_of_iff (_ ∧ _ ∧ _) ⟨fun h => ⟨h.1, h.2.1, h.2.2⟩, fun h => ⟨h.loops, h.values, h.conditionals⟩⟩

namespace Normalize

variable {tree : Tree} {n : Node}

/-- Names and arrays all the way down can be bound as they are. -/
theorem bindsDirectly_of_descendants {f : Forest Label}
    (h : ∀ c ∈ f.descendants, c.kind = .ident ∨ c.kind = .array) : bindsDirectly f = true := by
  induction f with
  | nil => rfl
  | token i rest ih => exact ih h
  | node l inside rest ihInside ih =>
    simp only [Forest.descendants, forall_mem_cons, forall_mem_append] at h
    obtain ⟨hl, hinside, hrest⟩ := h
    simp only [bindsDirectly, ih hrest, ihInside hinside, Bool.and_true, Bool.or_eq_true, beq_iff_eq]
    exact hl

/-! ## Parts patched in order -/

section Parts

variable {callee : Callee Context Construct} {p₀ p : Patcher Construct} {g₀ g : Context} {i : Nat}

/-- The context is as it was, and so are the parts from place `i` on. -/
structure Untouched (p₀ : Patcher Construct) (g₀ : Context) (i : Nat) (p : Patcher Construct) (g : Context) : Prop where
  context : g = g₀
  parts : ∀ j, i ≤ j → p.parts[j]? = p₀.parts[j]?

/-- Every part can be patched and leaves the context alone. -/
def Rests (callee : Call → Patcher Construct → Context → Outcome Context Construct Unit)
    (p₀ : Patcher Construct) (g₀ : Context) : Prop :=
  ∀ q ∈ p₀.parts, (callee .patch q g₀).result = .ok () ∧ (callee .patch q g₀).context = g₀

variable (hrests : Rests callee p₀ g₀)
include hrests

theorem Untouched.patch (h : Untouched p₀ g₀ i p g) (hi : i < p₀.parts.length) :
    Follows tree callee (Script.patch i) p g (Pure.pure ()) fun _ _ => Untouched p₀ g₀ (i + 1) := by
  have hpart : p.parts[i]? = some p₀.parts[i] := (h.parts i (Nat.le_refl i)).trans (getElem?_eq_getElem hi)
  obtain ⟨hresult, hcontext⟩ := hrests _ (getElem_mem hi)
  have hg := h.context
  subst hg
  rw [Follows, Script.patch, Script.run_callPart hpart]
  refine ⟨(), hresult, congrArg Context.scopes hcontext, hcontext, fun j hj => ?_⟩
  rw [Patcher.parts_withParts, getElem?_set_ne (by omega)]
  exact h.parts j (by omega)

theorem Untouched.patchPart (h : Untouched p₀ g₀ i p g) (c : Node) (hi : i < p₀.parts.length) :
    Follows tree callee (Script.patchPart (partAt tree i c)) p g (Pure.pure ()) fun _ _ => Untouched p₀ g₀ (i + 1) :=
  h.patch hrests hi

theorem Untouched.patchPart? (h : Untouched p₀ g₀ i p g) {o : Option Node}
    (hi : i + o.toList.length ≤ p₀.parts.length) :
    Follows tree callee ((o.map (partAt tree i)).forM Script.patchPart) p g (Pure.pure ())
      fun _ _ => Untouched p₀ g₀ (i + o.toList.length) := by
  cases o with
  | none => exact .pure h
  | some c => exact h.patchPart hrests c hi

end Parts

/-! ## Constructs -/

section Constructs

variable {callee : Callee Context Construct} {p₀ : Patcher Construct} {g₀ : Context} (hrests : Rests callee p₀ g₀)
include hrests

/-- A loop whose header comes first finds its keyword and patches its parts. -/
theorem rests_loop {s : LoopShape} {v : LoopView} (hn : n.Sound tree) (hs : s.Of tree n)
    (htrailing : s.isTrailing = false) (hkey : ∀ c ∈ v.key, c ∈ s.header.nodes)
    (hvalue : ∀ c ∈ v.value, c ∈ s.header.nodes)
    (hdirect : ∀ c ∈ v.value, bindsDirectly c.unwrapParens.toForest = true) (htree : g₀.tree = tree)
    (hnode : p₀.site.node = n)
    (hparts : v.key.toList.length + v.value.toList.length + 1 + v.filter.toList.length + 1 ≤ p₀.parts.length) :
    Follows tree callee ((loopOf tree v s.header.target s.body).patch p₀.site) p₀ g₀ (Pure.pure ())
      fun _ _ _ g => g = g₀ := by
  obtain ⟨t, _, ht, -⟩ := hs.leading hn htrailing
  have hstart : Untouched p₀ g₀ 0 p₀ g₀ := ⟨rfl, fun _ _ => rfl⟩
  rw [Loop.patch_eq]
  refine .seq (hstart.patchPart? hrests (by omega)) fun _ p g h => ?_
  rw [Nat.zero_add] at h
  refine .seq (Q := fun line p g => line = none ∧
    Untouched p₀ g₀ (v.key.toList.length + v.value.toList.length) p g) ?_ ?_
  · simp only [loopOf]
    cases hv : v.value with
    | none => exact .pure ⟨rfl, h⟩
    | some value =>
      have hbinds : bindsDirectly (partAt tree v.key.toList.length value).site.node.toForest = true := hdirect value hv
      simp only [Option.map_some, patchLoopValue, hbinds, if_true]
      refine .seq (h.patchPart hrests value ?_) fun _ p g h => .pure ⟨rfl, h⟩
      rw [hv] at hparts
      simp only [Option.toList_some, length_singleton] at hparts
      omega
  rintro _ p g ⟨rfl, h⟩
  refine .seq (h.patchPart hrests s.header.target (by omega)) fun _ p g h => ?_
  refine .seq (h.patchPart? hrests (by omega)) fun _ p g h => ?_
  have hg := h.context
  subst hg
  refine .seq (follows_keyword hn hs hkey hvalue hnode htree ht) ?_
  rintro _ p' _ ⟨rfl, rfl, rfl⟩
  -- The header stays where it is, and there is no line to put in front of the body.
  rw [Loop.place, isTrailing_eq hn hs, htrailing]
  exact .mono (h.patchPart hrests s.body (by omega)) fun _ _ _ _ h => h.context

/-- A node whose header comes first patches its parts and leaves the context alone. -/
theorem rests_node (hleading : tree.Leading) (hmem : n ∈ tree.root.descendants) (hn : n.Sound tree)
    (hconstruct : p₀.construct = constructOf tree n) (hparts : p₀.parts.length = (partsOf tree n).length)
    (hnode : p₀.site.node = n) (htree : g₀.tree = tree) :
    Follows tree callee (patch p₀) p₀ g₀ (Pure.pure ()) fun _ _ _ g => g = g₀ := by
  rcases construct_cases hn with ⟨s, hf, hs⟩ | ⟨body, i, condition, -, -, -, -, -, hview⟩ | ⟨hloop, hview⟩
  · obtain ⟨v, hview, -, -, htarget, hbody, hkey, hvalue, hfilter⟩ := hs.exists_view hf
    have htrailing : s.isTrailing = false := by
      have hle := hleading.loops n hmem v hview _ htarget _ hbody
      by_contra hne
      obtain ⟨t, -, -, -, hkeyword, hp⟩ := hs.trailing hn (Bool.not_eq_false _ ▸ hne)
      have hbehind := (hp.mem (mem_map_of_mem s.header.target_mem)).1
      have hfilled := (hn.child (hs.mem_children (Or.inl rfl))).inside.nonempty
      omega
    have hdirect : ∀ c ∈ v.value, bindsDirectly c.unwrapParens.toForest = true := by
      intro c hc
      have hkinds := hleading.values n hmem v hview c hc
      have hunwrap : c.unwrapParens = c := Node.unwrapParens_of_ne fun hk => by
        rcases hkinds c c.self_mem_descendants with h | h <;> cases hk.symm.trans h
      rw [hunwrap]
      exact bindsDirectly_of_descendants hkinds
    simp only [constructOf, partsOf, hview, htarget, hbody] at hconstruct hparts
    simp only [patch, hconstruct]
    refine rests_loop hrests hn hs htrailing hkey hvalue hdirect htree hnode ?_
    simp only [hparts, length_append, Option.toList_some, length_singleton]
    omega
  · obtain ⟨hv, htrailing⟩ := Option.filter_eq_some_iff.1 hview
    rw [hleading.conditionals n hmem _ hv] at htrailing
    cases htrailing
  · simp only [constructOf, hloop, hview] at hconstruct
    simp only [patch, hconstruct]
    have hrun := Script.run_forM_callPart (nil_append p₀.parts).symm hrests
    rw [length_nil, ← range_eq_range'] at hrun
    exact ⟨(), congrArg Outcome.result hrun, congrArg (·.context.scopes) hrun, congrArg Outcome.context hrun⟩

end Constructs

/-! ## Programs -/

/-- Patching a node of a tree whose headers come first leaves the context alone. -/
theorem rests_call (hleading : tree.Leading) (depth : Nat) {p : Patcher Construct} {g : Context}
    (hmem : n ∈ tree.root.descendants) (hn : n.Sound tree) (hp : Shows tree .prepared n p) (hdepth : p.height ≤ depth)
    (htree : g.tree = tree) :
    (Patcher.callWithin hooks depth .patch p g).result = .ok () ∧
      (Patcher.callWithin hooks depth .patch p g).context = g := by
  induction depth generalizing n p with
  | zero =>
    rw [Patcher.height_eq] at hdepth
    omega
  | succ depth ih =>
    obtain ⟨hsite, hphase, hconstruct, hparts⟩ := hp
    obtain ⟨hm, -, -, -⟩ := hn.unwrapParens
    have hmem' := Node.descendants_trans hmem n.unwrapParens_mem
    have hrests : Rests (Patcher.callWithin hooks depth) p g := by
      intro q hq
      obtain ⟨i, hlt, rfl⟩ := getElem_of_mem hq
      obtain ⟨hlen, hshows⟩ := forall₂_iff_get.1 hparts
      have hlt' : i < (partsOf tree n.unwrapParens).length := hlen ▸ hlt
      have hc := mem_children_of_mem_partsOf hm (getElem_mem hlt')
      have hheight := Patcher.height_lt_of_mem (getElem_mem hlt)
      exact ih (Node.descendants_child hmem' hc) (hm.child hc) (hshows i hlt' hlt) (by omega)
    obtain ⟨_, hresult, -, hcontext⟩ := rests_node hrests hleading hmem' hm hconstruct hparts.length_eq.symm
      (by rw [hsite]; rfl) htree
    rw [callWithin_patch hsite hphase, Patcher.advance, hresult]
    exact ⟨rfl, hcontext⟩

/-- Running all patchers of such a tree leaves the context alone. -/
theorem runAll_leading (hsound : tree.root.Sound tree ∨ tree.Blank) (hleading : tree.Leading) :
    ∃ p, patchers tree = .ok p ∧
      p.runAll hooks (.ofTree tree .normalize) = (.ok (), .ofTree tree .normalize) := by
  rcases hsound with h | h
  · obtain ⟨p, hp, hshows⟩ := exists_patcher tree.root h
    obtain ⟨p', hprepared, hshows'⟩ := exists_prepared p.height tree.root p (.ofTree tree .normalize) hshows
      (Nat.le_refl _)
    obtain ⟨hresult, hcontext⟩ := rests_call (g := .ofTree tree .normalize) hleading p'.height
      tree.root.self_mem_descendants h hshows' (Nat.le_refl _) rfl
    refine ⟨p, hp, ?_⟩
    unfold Patcher.runAll Patcher.call
    rw [hprepared]
    exact Prod.ext hresult hcontext
  · obtain ⟨block, hp⟩ := patchers_of_blank h
    exact ⟨_, hp, runAll_blank tree.root block _⟩

/-- A program without faults whose headers come first, with loop values made of names and arrays, is normalized to
itself: no edit is made, no name is taken, and all else in the context stays too. -/
theorem run_leading (text : String) (h : (Parse.ofText text.toList).errors = [])
    (hleading : (Parse.ofText text.toList).tree.Leading) :
    let cx := Context.ofTree (Parse.ofText text.toList).tree .normalize
    run (Parse.ofText text.toList).tree cx = (.ok text, cx) ∧ cx.editor.count = 0 ∧
      Stage.apply .normalize text = .ok text := by
  have hsound := Parse.sound_ofText h
  have htext : (Parse.ofText text.toList).tree.text = text.toList := by
    obtain ⟨f, hf⟩ := Parse.exists_block text.toList
    exact hf.tree_eq.1
  rw [Stage.apply_eq_ok_iff]
  generalize Parse.ofText text.toList = parsed at *
  obtain ⟨tree, errors⟩ := parsed
  obtain ⟨p, hp, hrun⟩ := runAll_leading hsound hleading
  have hlift : (liftExcept (patchers tree) : Patching (Patcher Construct)) (.ofTree tree .normalize) =
      (.ok p, .ofTree tree .normalize) := by
    rw [hp]
    rfl
  have hresult : run tree (.ofTree tree .normalize) = (.ok text, .ofTree tree .normalize) := by
    have hrender : (Context.ofTree tree .normalize).editor.render = .ok text :=
      (render_ofText tree.text).trans (by rw [htext, String.ofList_toList])
    rw [run, bind_patching hlift, bind_patching hrun]
    exact rendered_eq hrender
  exact ⟨hresult, rfl, h, congrArg Prod.fst hresult⟩

theorem run_leading_nested :
    let text := "for [a, [b]], i in xs when i > 0\n  if a then f(b) else g(-> for k, v of b then return v)\n"
    let parsed := Parse.ofText text.toList
    parsed.errors = [] ∧ parsed.tree.Leading ∧ Stage.apply .normalize text = .ok text := by
  intro text parsed
  have herrors : parsed.errors = [] := by decide +kernel
  have hleading : parsed.tree.Leading := by decide +kernel
  exact ⟨herrors, hleading, (run_leading text herrors hleading).2.2⟩

end Normalize

end Respell
