import Respell.Proofs.Compile
import Respell.Proofs.Normalize.Loops
import Respell.Proofs.Tree.Parsed

/-!
The edits of the normalize stage give the text that the translation tells.

What is left are the conditionals, whose header moves as that of a loop does, and the nodes that stay as they
are.  A call of a patcher then follows the translation of its node, by induction on how deep calls are nested.
-/

namespace Respell.Normalize

open List Text

section Constructs

variable {tree : Tree} {callee : Callee Context Construct} {of : Node → Translating (List Char)}
  {p₀ : Patcher Construct} {g₀ : Context} {n : Node} {site : Site}

/-- The patches of a conditional that starts with its body. -/
theorem follows_conditional {body condition : Node} {i : Nat} {v : ConditionalView} (hn : n.Sound tree)
    (hk : n.kind = .ifExpr) (hitems : n.items = [.node body, .token i, .node condition])
    (hi : tree.kindAt i = .ifKw) (hblock : body.kind = .block) (hif : v.ifToken = some i)
    (hcondition : v.condition = some condition) (hbody : v.consequent = some body)
    (ha : Answers tree callee of [condition, body] p₀) (hready : Ready tree g₀ n.range)
    (hnode : site.node = n) :
    Follows tree callee (patchConditional site (partAt tree 0 condition) (partAt tree 1 body)) p₀ g₀
      (conditionalText tree of n v) fun x _ _ g' => Patched tree n x g₀ g' := by
  have hsite : site.content = n.range := by rw [Site.content, hnode]
  have hsound : ∀ {c}, .node c ∈ n.items → c.Sound tree := fun hc => hn.child (Node.mem_children.2 hc)
  have hcs := @hsound condition (by simp [hitems])
  have hbs := @hsound body (by simp [hitems])
  obtain ⟨t, ht, htin, hstart, hle, hp⟩ := hn.trailing_conditional hitems hi
  obtain ⟨h1, h2, h3⟩ := hp
  have hlt := h2.nonempty
  have hlt' := hbs.inside.nonempty
  simp only [InOrder] at h3
  have htrails : Trails tree n body t.range.start := .of_le hn hbs hstart htin.start hle (by omega)
  have hle' : n.range.start ≤ t.range.start := by omega
  simp only [conditionalText, hif, hcondition, hbody, Option.bind_some, ht, lift_some, pure_bind]
  unfold patchConditional
  have hnext : Next tree g₀ [] condition :=
    ⟨hready.mono (by omega) h3, h2, by simp, by simp⟩
  refine ((Done.nil hready.fine).follows_patch ha rfl hnext).bind ?_
  rintro x _ p₁ g₁ ⟨-, h₁⟩
  have hp : ∀ y : List Char, InOrder tree.text 1 t.range.start n.range.stop
    (([] ++ [(condition.range, y)]).map Prod.fst) := fun y => ⟨h1, h2, h3⟩
  have hencloses := h₁.rewrites.encloses hready.fresh hle' (hp x)
  refine (follows_protect (h₁.context.tree_eq.trans hready.tree_eq) hcs hready.fresh hle' (hp x) hencloses).seq ?_
  rintro _ p₂ g₂ ⟨rfl, hg₂, h₂⟩
  have hcontext := h₁.context.trans hg₂
  have hfind : tree.keywordBetween? (.ofNode tree body) (.ofNode tree condition) .ifKw = tree.token? i :=
    hn.keywordBetween?_eq (show n.items = [] ++ [.node body] ++ .token i :: [.node condition] from hitems) (by simp)
      mem_cons_self hi rfl rfl rfl
  refine .step (m := get) (a := g₂) rfl rfl ?_
  rw [hcontext.tree_eq, hready.tree_eq]
  simp only [partAt, hfind, ht]
  refine (follows_moveHeader htrails hsite hready.fine hready.fresh (hp _) h₂).seq ?_
  rintro _ p₃ g₃ ⟨rfl, hg₃, h₃⟩
  exact follows_moved htrails ha rfl (h₁.rest 1 (Nat.le_refl _)) hready
    (Node.conditional_not_steady hk hitems hblock) (hcontext.trans hg₃) h₃

/-- The patches of a node that stays as it is, but for what is in it. -/
theorem follows_plain (hn : n.Sound tree) (ha : Answers tree callee of n.children p₀)
    (hready : Ready tree g₀ n.range) :
    Follows tree callee ((List.range n.children.length).forM Script.patch) p₀ g₀
      (do return patchwork tree.text n.range.start n.range.stop (← n.children.mapM (inPlace of)))
      fun x _ _ g' => Patched tree n x g₀ g' := by
  obtain ⟨hpairwise, hin⟩ := hn.children_apart
  have hnext : ∀ {done c rest}, n.children = done ++ c :: rest → Next tree g₀ done c := fun heq =>
    .of_pairwise heq hready hin (hpairwise.imp Or.inl)
  have hall := (Done.nil hready.fine).follows_all ha (nil_append n.children).symm hnext
  rw [length_nil, ← range_eq_range'] at hall
  refine hall.map ?_
  rintro pieces _ p' g' ⟨h, hahead⟩
  refine ⟨h.context, ?_, fun hsteady => hahead _ fun d hd => ?_⟩
  · refine h.rewrites.patchwork hready.fine hready.fresh hn.inside ?_
    rw [h.ranges]
    exact .of_pairwise (by simpa using fun c hc => ⟨(hin c hc).2.1, (hin c hc).1, (hin c hc).2.2⟩)
      (Nat.le_of_lt hn.inside.nonempty) (pairwise_map.2 hpairwise)
  · have hle := (hin d hd).2.1
    rcases hn.steady_cases hsteady with hlt | ⟨c, more, hchildren, hc, hlt⟩
    · exact Or.inl (Or.inl (hlt d hd))
    · rw [hchildren] at hd
      rcases mem_cons.1 hd with rfl | hd
      · rcases Nat.eq_or_lt_of_le hle with heq | hlt
        · exact Or.inr ⟨hc, heq⟩
        · exact Or.inl (Or.inl hlt)
      · exact Or.inl (Or.inl (hlt d hd))

/-- The patches of a node follow its text, if those of its parts do. -/
theorem follows_node (hn : n.Sound tree) (ha : Answers tree callee of (partsOf tree n) p₀)
    (hready : Ready tree g₀ n.range) (hconstruct : p₀.construct = constructOf tree n)
    (hparts : p₀.parts.length = (partsOf tree n).length) (hnode : p₀.site.node = n)
    (hscope : p₀.site.scope = tree.enclosing n.id) :
    Follows tree callee (patch p₀) p₀ g₀ (nodeText tree of n) fun x _ _ g' => Patched tree n x g₀ g' := by
  unfold patch nodeText
  unfold constructOf at hconstruct
  unfold partsOf at hparts
  rcases construct_cases hn with ⟨s, hk, hs⟩ |
    ⟨body, i, condition, hk, hitems, hif, hblock, hloop, hview⟩ | ⟨hloop, hview⟩
  · have hview := hs.view hk
    simp only [hview] at hconstruct ⊢
    rw [hconstruct]
    exact follows_loop hn hk hs rfl ha hready hnode hscope
  · simp only [partsOf, hloop, hview] at ha hconstruct ⊢
    rw [hconstruct]
    exact follows_conditional hn hk hitems hif hblock rfl rfl rfl ha hready hnode
  · simp only [partsOf, hloop, hview] at ha hparts hconstruct ⊢
    rw [hconstruct, hparts]
    exact follows_plain hn ha hready

end Constructs

/-! ## Whole trees -/

section Trees

variable {tree : Tree} {n c : Node} {o : Outcome Context Construct Unit} {p : Patcher Construct}

theorem texts_eq (tree : Tree) (f : Forest Label) : texts tree f = f.nodes.map fun c => (c.id, textOf tree c) := by
  induction f with
  | nil => rfl
  | token i rest ih => exact ih
  | node l inside rest _ ih => exact congrArg _ ih

/-- The texts in a node are those of its children. -/
theorem lookup_texts (hn : n.Sound tree) (hc : c ∈ n.children) :
    ((texts tree n.elements).lookup c.id).getD failure = textOf tree c := by
  have hids := hn.ids
  rw [Node.toForest, Forest.labels, Forest.labels, append_nil, map_cons] at hids
  have hnodup : ((texts tree n.elements).map Prod.fst).Nodup := by
    rw [texts_eq, map_map]
    exact (nodup_cons.1 hids).2.sublist (Forest.nodes_ids_sublist n.elements)
  have hmem : (c.id, textOf tree c) ∈ texts tree n.elements := by
    rw [texts_eq]
    exact mem_map_of_mem (f := fun c => (c.id, textOf tree c)) hc
  rw [lookup_eq_some_of_mem hnodup hmem, Option.getD_some]

/-- Parentheses keep their place around what they hold. -/
theorem textOf_paren (hn : n.Sound tree) (hk : n.kind = .parenExpr) (hchildren : n.children = [c]) :
    textOf tree n = textOf tree c >>= fun x =>
      pure (patchwork tree.text n.range.start n.range.stop [(c.range, x)]) := by
  have hloop : LoopView.ofNode? tree n = none := if_neg (by rw [hk]; decide)
  have hcond : ConditionalView.ofNode? tree n = none := if_neg (by rw [hk]; decide)
  have hc := lookup_texts hn (c := c) (by simp [hchildren])
  rw [textOf, nodeText]
  simp only [hloop, hcond, Option.filter_none, hchildren, inPlace, mapM_cons, mapM_nil, bind_assoc, pure_bind, hc]

/-- What follows the text of a node follows it with the parentheses around it. -/
theorem agrees_parens {g : Context} {s : Scopes} (hn : n.Sound tree) (hready : Ready tree g n.range)
    (h : Agrees tree o (textOf tree n.unwrapParens s) fun x _ _ g' => Patched tree n.unwrapParens x g g') :
    Agrees tree o (textOf tree n s) fun x _ _ g' => Patched tree n x g g' := by
  refine hn.parens_induction (P := fun n => Ready tree g n.range →
    Agrees tree o (textOf tree n.unwrapParens s) (fun x _ _ g' => Patched tree n.unwrapParens x g g') →
    Agrees tree o (textOf tree n s) fun x _ _ g' => Patched tree n x g g') ?_ ?_ n hready h
  · intro n _ hk _ h
    rwa [Node.unwrapParens_of_ne hk] at h
  · intro n c hn hk hchildren hc hunwrap hstart hstop ih hready h
    rw [hunwrap] at h
    rw [textOf_paren hn hk hchildren]
    refine (ih (hready.mono (by omega) (by omega)) h).map fun x _ _ g' hpatched => ?_
    refine ⟨hpatched.context, hpatched.rewrites.patchwork hready.fine hready.fresh hn.inside ?_, fun _ => ?_⟩
    · exact ⟨Nat.le_of_lt hstart, hc.inside, Nat.le_of_lt hstop⟩
    · refine (hpatched.rewrites.outside _ fun q hq => ?_).1
      rw [mem_singleton.1 hq]
      exact Or.inl hstart

theorem Agrees.advance {t : Option (List Char × Scopes)} {Q : List Char → Context → Prop} {phase : Phase}
    (h : Agrees tree o t fun x _ _ g => Q x g) : Agrees tree (Patcher.advance phase o) t fun x _ _ g => Q x g := by
  cases t with
  | none =>
    obtain ⟨hint, range, hrange, hr⟩ := h
    exact ⟨hint, range, hrange, by rw [Patcher.advance, hr]; exact hr⟩
  | some r =>
    obtain ⟨a, hr, hs, hq⟩ := h
    rw [Patcher.advance, hr]
    exact ⟨a, rfl, hs, hq⟩

theorem callWithin_patch {g : Context} (hsite : p.site = .ofNode tree n) (hphase : p.phase = .prepared) {depth : Nat} :
    Patcher.callWithin hooks (depth + 1) .patch p g =
      Patcher.advance .patched ((patch p).run (Patcher.callWithin hooks depth) p g) := by
  rw [Patcher.callWithin]
  simp only [hphase, hsite]
  rfl

/-- Patching a node follows the translation of the node. -/
theorem agrees_call (depth : Nat) {g : Context} (hn : n.Sound tree) (hp : Shows tree .prepared n p)
    (hdepth : p.height ≤ depth) (hready : Ready tree g n.range) :
    Agrees tree (Patcher.callWithin hooks depth .patch p g) (textOf tree n g.scopes)
      fun x _ _ g' => Patched tree n x g g' := by
  induction depth generalizing n p g with
  | zero =>
    rw [Patcher.height_eq] at hdepth
    omega
  | succ depth ih =>
    obtain ⟨hsite, hphase, hconstruct, hparts⟩ := hp
    obtain ⟨hm, -, hstart, hstop⟩ := hn.unwrapParens
    refine agrees_parens hn hready ?_
    have hanswers : Answers tree (Patcher.callWithin hooks depth)
        (fun c => ((texts tree n.unwrapParens.elements).lookup c.id).getD failure)
        (partsOf tree n.unwrapParens) p := by
      intro i c hi
      obtain ⟨hlt, rfl⟩ := List.getElem?_eq_some_iff.1 hi
      obtain ⟨hlen, hshows⟩ := forall₂_iff_get.1 hparts
      have hlt' : i < p.parts.length := hlen ▸ hlt
      have hc := mem_children_of_mem_partsOf hm (getElem_mem hlt)
      have hheight := Patcher.height_lt_of_mem (getElem_mem hlt')
      refine ⟨p.parts[i], getElem?_eq_getElem hlt', fun g' hg' => ?_⟩
      simp only [lookup_texts hm hc]
      exact ih (hm.child hc) (hshows i hlt hlt') (by omega) hg'
    rw [callWithin_patch hsite hphase]
    exact Agrees.advance (follows_node hm hanswers (hready.mono hstart hstop) hconstruct hparts.length_eq.symm
      (by rw [hsite]; rfl) (by rw [hsite]; rfl))

/-- The text once the whole tree was rewritten. -/
theorem render_eq {e : Editor} {x : List Char} (hn : n.Sound tree)
    (h : Rewrites tree.text (.ofText tree.text) e [(n.range, x)]) :
    e.render = .ok (String.ofList (patchwork tree.text 0 (byteLength tree.text) [(n.range, x)])) := by
  have hin := hn.inside
  have hlt := hin.nonempty
  have hle := le_byteLength_of_isBoundary hin.stop
  have hwhole : (⟨0, byteLength tree.text⟩ : Span).Inside tree.text :=
    ⟨by simp only; omega, isBoundary_zero _, isBoundary_byteLength _⟩
  have hall := h.patchwork (Editor.fine_ofText _) (Editor.fresh_ofText _ ⟨0, byteLength tree.text⟩) hwhole
    ⟨Nat.zero_le _, hin, hle⟩
  have htext := hall.texts _ (mem_singleton_self _)
  have hend := (hall.outside (byteLength tree.text) fun q hq => by
    rw [mem_singleton.1 hq]
    exact Or.inr (Nat.le_refl _)).1
  simp only [source_whole] at htext
  rw [h.fine.render, htext, hend]
  simp [Editor.ahead_ofText]

/-- The stage runs the patchers and renders. -/
theorem stage_run_eq (hp : patchers tree = .ok p) :
    Stage.normalize.run tree = ((p.runAll hooks >>= fun _ => Patching.render) (.ofTree tree .normalize)).1 := by
  have hlift : (liftExcept (patchers tree) : Patching (Patcher Construct)) (.ofTree tree .normalize) =
      (.ok p, .ofTree tree .normalize) := by
    rw [hp]
    rfl
  exact congrArg Prod.fst (bind_patching hlift)

/-- Running the stage on a tree follows the translation of the tree. -/
def Renders (tree : Tree) : Prop :=
  match translation tree with
  | some u => Stage.normalize.run tree = .ok u
  | none => ∃ hint range, range.Cuts tree.text ∧ Stage.normalize.run tree = .error (.binding hint range)

theorem renders_of_sound (h : tree.root.Sound tree) : Renders tree := by
  have hready : Ready tree (.ofTree tree .normalize) tree.root.range :=
    ⟨rfl, rfl, Editor.fine_ofText _, Editor.fresh_ofText _ _⟩
  obtain ⟨p, hp, hshows⟩ := exists_patcher tree.root h
  obtain ⟨p', hprepared, hshows'⟩ := exists_prepared p.height tree.root p (.ofTree tree .normalize) hshows
    (Nat.le_refl _)
  have hagrees : Agrees tree _ (textOf tree tree.root (.ofTree tree)) _ :=
    agrees_call p'.height h hshows' (Nat.le_refl _) hready
  have hall : p.runAll hooks (.ofTree tree .normalize) =
      ((Patcher.callWithin hooks p'.height .patch p' (.ofTree tree .normalize)).result,
        (Patcher.callWithin hooks p'.height .patch p' (.ofTree tree .normalize)).context) := by
    unfold Patcher.runAll Patcher.call
    rw [hprepared]
  generalize Patcher.callWithin hooks p'.height .patch p' (.ofTree tree .normalize) = o at hagrees hall
  have hrun := stage_run_eq hp
  cases ht : textOf tree tree.root (.ofTree tree) with
  | none =>
    rw [ht] at hagrees
    obtain ⟨hint, range, hrange, hr⟩ := hagrees
    have htranslation : translation tree = none := by simp [translation, StateT.run, ht]
    rw [hr] at hall
    rw [Renders, htranslation]
    refine ⟨hint, range, hrange, hrun.trans ?_⟩
    rw [bind_patching_error hall]
  | some r =>
    rw [ht] at hagrees
    obtain ⟨_, hr, -, hpatched⟩ := hagrees
    have htranslation : translation tree = some (String.ofList
        (patchwork tree.text 0 (byteLength tree.text) [(tree.root.range, r.1)])) := by
      simp [translation, StateT.run, ht]
    rw [hr] at hall
    rw [Renders, htranslation]
    refine hrun.trans ?_
    rw [bind_patching hall]
    exact congrArg Prod.fst (rendered_eq (render_eq h hpatched.rewrites))

/-- The patcher of a node that is neither a loop nor a conditional that starts with its body. -/
theorem fold_plain {pick : Node → Patcher Construct} (hparen : n.kind ≠ .parenExpr)
    (hloop : LoopView.ofNode? tree n = none)
    (hcond : (ConditionalView.ofNode? tree n).filter (·.isTrailing) = none)
    (hpick : ∀ c ∈ n.children, (n.elements.results (Assembly.patcher tree (construct tree))).lookup c.id =
      some (.ok (pick c)) ∧ (pick c).site = .ofNode tree c) :
    n.fold (Assembly.patcher tree (construct tree)) = .ok (.new (.ofNode tree n) .plain (n.children.map pick)) := by
  have hconstruct : construct tree n (n.elements.results (Assembly.patcher tree (construct tree))) [] =
      .ok (.plain, n.children.map pick) := by
    simp only [construct, hloop, hcond]
    exact bind_eq (forM_part_eq hpick [])
  simp only [Node.fold, Assembly.patcher, hparen, if_false, StateT.run]
  rw [hconstruct]
  rfl

theorem runAll_blank (m n : Node) (g : Context) :
    (Patcher.new (.ofNode tree m) Construct.plain [.new (.ofNode tree n) .plain []]).runAll hooks g = (.ok (), g) := by
  have hprepare : (Patcher.new (.ofNode tree m) Construct.plain
      [.new (.ofNode tree n) .plain []]).call hooks .prepare g =
        ⟨.ok (), .mk (.ofNode tree m) .prepared .plain [.mk (.ofNode tree n) .prepared .plain []], g⟩ := rfl
  have hpatch : (Patcher.mk (.ofNode tree m) .prepared Construct.plain
      [.mk (.ofNode tree n) .prepared .plain []]).call hooks .patch g =
        ⟨.ok (), .mk (.ofNode tree m) .patched .plain [.mk (.ofNode tree n) .patched .plain []], g⟩ := rfl
  unfold Patcher.runAll
  rw [hprepare]
  dsimp only
  rw [hpatch]

theorem render_ofText (text : List Char) : (Editor.ofText text).render = .ok (String.ofList text) := by
  have hlead : (Editor.ofText text).reading.lead 0 text = text := by
    cases text with
    | nil => rfl
    | cons c cs => exact Reading.lead_eq_ahead_append (fun _ _ _ => rfl) fun _ _ _ => ⟨rfl, rfl⟩
  rw [(Editor.fine_ofText text).render, hlead, Editor.ahead_ofText, append_nil]

theorem plain_of_kind (tree : Tree) (hk : n.kind = .program ∨ n.kind = .block) : n.kind ≠ .parenExpr ∧
    LoopView.ofNode? tree n = none ∧ (ConditionalView.ofNode? tree n).filter (·.isTrailing) = none := by
  rcases hk with hk | hk <;> simp [LoopView.ofNode?, ConditionalView.ofNode?, hk]

theorem textOf_of_blank (h : tree.Blank) : textOf tree tree.root = pure [] := by
  obtain ⟨block, hchildren, hblock, hrange, hnone⟩ := h.block
  obtain ⟨-, hr₁, hr₂⟩ := plain_of_kind tree (Or.inl h.kind)
  obtain ⟨-, hb₁, hb₂⟩ := plain_of_kind tree (Or.inr hblock)
  have hnodes : tree.root.elements.nodes = [block] := hchildren
  have hsource : source tree.text ⟨0, 0⟩ = [] := source_self (isBoundary_zero _)
  have hblockText : textOf tree block = pure [] := by
    simp only [textOf, nodeText, hb₁, hb₂, hnone, mapM_nil, pure_bind, hrange, patchwork, Span.empty, hsource]
  have hlookup : ((texts tree tree.root.elements).lookup block.id).getD failure = textOf tree block := by
    rw [texts_eq, hnodes, map_singleton, lookup_cons, beq_self_eq_true, Option.getD_some]
  rw [textOf, nodeText]
  simp only [hr₁, hr₂, hchildren, mapM_cons, mapM_nil, inPlace, hlookup, hblockText, pure_bind,
    h.range, hrange, patchwork, Span.empty, hsource, append_nil]

theorem patchers_of_blank (h : tree.Blank) : ∃ block, patchers tree =
    .ok (.new (.ofNode tree tree.root) .plain [.new (.ofNode tree block) .plain []]) := by
  obtain ⟨block, hchildren, hblock, hrange, hnone⟩ := h.block
  obtain ⟨hr₀, hr₁, hr₂⟩ := plain_of_kind tree (Or.inl h.kind)
  obtain ⟨hb₀, hb₁, hb₂⟩ := plain_of_kind tree (Or.inr hblock)
  have hnodes : tree.root.elements.nodes = [block] := hchildren
  have hfold : block.fold (Assembly.patcher tree (construct tree)) = .ok (.new (.ofNode tree block) .plain []) := by
    rw [@fold_plain tree block (fun c => .new (.ofNode tree c) .plain []) hb₀ hb₁ hb₂ (by simp [hnone]), hnone]
    rfl
  have hlookup : (tree.root.elements.results (Assembly.patcher tree (construct tree))).lookup block.id =
      some (block.fold (Assembly.patcher tree (construct tree))) := by
    have hhead := Forest.head?_results (Assembly.patcher tree (construct tree)) tree.root.elements
    rw [hnodes] at hhead
    obtain ⟨rest, heq⟩ := head?_eq_some_iff.1 hhead
    rw [heq, lookup_cons, beq_self_eq_true]
  refine ⟨block, ?_⟩
  rw [patchers, @fold_plain tree tree.root (fun c => .new (.ofNode tree c) .plain []) hr₀ hr₁ hr₂, hchildren]
  · rfl
  · simp only [hchildren, mem_singleton, forall_eq]
    exact ⟨hlookup.trans (congrArg some hfold), rfl⟩

theorem renders_of_blank (h : tree.Blank) : Renders tree := by
  obtain ⟨block, hpatchers⟩ := patchers_of_blank h
  have htranslation : translation tree = some (String.ofList tree.text) := by
    have hsource : source tree.text ⟨0, 0⟩ = [] := source_self (isBoundary_zero _)
    rw [translation, textOf_of_blank h]
    show some (String.ofList (patchwork tree.text 0 _ [(tree.root.range, [])])) = _
    simp only [h.range, Span.empty, patchwork, hsource, source_whole, append_nil, nil_append]
  rw [Renders, htranslation]
  refine (stage_run_eq hpatchers).trans ?_
  rw [bind_patching (runAll_blank tree.root block _)]
  exact congrArg Prod.fst (rendered_eq (render_ofText tree.text))

/-- A tree that cannot be normalized lacks a name, which is reported at a place in the text. -/
theorem Renders.of_error (h : Renders tree) {e : PatchError} (he : Stage.normalize.run tree = .error e) :
    ∃ hint range, range.Cuts tree.text ∧ e = .binding hint range := by
  unfold Renders at h
  split at h
  · cases h.symm.trans he
  · obtain ⟨hint, range, hrange, hrun⟩ := h
    exact ⟨hint, range, hrange, Except.error.inj (he.symm.trans hrun)⟩

theorem renders_ofText {text : List Char} (h : (Parse.ofText text).errors = []) : Renders (Parse.ofText text).tree := by
  have hsound := Parse.sound_ofText h
  generalize (Parse.ofText text).tree = tree at hsound ⊢
  rcases hsound with h | h
  · exact renders_of_sound h
  · exact renders_of_blank h

end Trees

/-- The normalize stage gives the text that the translation reads off the tree.  It gives one exactly if the
program has no faults and there are names for its temporaries. -/
theorem apply_eq_ok_iff_translation (text u : String) :
    Stage.apply .normalize text = .ok u ↔
      (Parse.ofText text.toList).errors = [] ∧ translation (Parse.ofText text.toList).tree = some u := by
  have hrenders := @renders_ofText text.toList
  rw [Stage.apply_eq_ok_iff]
  generalize Parse.ofText text.toList = parsed at *
  refine and_congr_right fun hnil => ?_
  replace hrenders := hrenders hnil
  unfold Renders at hrenders
  cases htranslation : translation parsed.tree with
  | none =>
    rw [htranslation] at hrenders
    obtain ⟨hint, range, -, hrun⟩ := hrenders
    simp [hrun]
  | some v =>
    rw [htranslation] at hrenders
    simp [hrenders]

example : (Stage.apply .normalize "f(x) for [x, @y] in z if w").toOption =
    some "if w then for value in z then [x, @y] = value; f(x)" := by
  decide +kernel

/-- The text that the translation tells need not be read back as it was put together: a body that has moved
behind its header takes in the statement that follows on the same line. -/
theorem reread_body_takes_next_statement :
    let statements (text : String) : List Kind :=
      ((Parse.ofText text.toList).tree.root.children.flatMap Node.children).map fun c => c.kind
    (Stage.apply .normalize "a() if b; c()\n").toOption = some "if b then a(); c()\n" ∧
      (Parse.ofText "a() if b; c()\n".toList).errors = [] ∧
      (Parse.ofText "if b then a(); c()\n".toList).errors = [] ∧
      statements "a() if b; c()\n" = [.ifExpr, .callExpr] ∧ statements "if b then a(); c()\n" = [.ifExpr] := by
  decide +kernel

/-- Nor need it be read back without faults: `then` comes to stand behind the last line of a header, and if
that is the body of a function, it stands inside the function. -/
theorem reread_header_takes_then :
    (Stage.apply .normalize "f(x) for x in ->\n  y\n").toOption = some "for x in ->\n  y then f(x)\n" ∧
      (Parse.ofText "f(x) for x in ->\n  y\n".toList).errors = [] ∧
      (Parse.ofText "for x in ->\n  y then f(x)\n".toList).errors ≠ [] := by
  decide +kernel

end Respell.Normalize
