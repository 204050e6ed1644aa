import Respell.Proofs.Javascript.Positions

/-!
Where the JavaScript of a tree is put in, and that nothing is left there of what JavaScript does not have.

Every construct edits at the ends of its parts and at tokens of its own, and each part is patched before the text around
it is replaced.  So every script of a construct works (`patchScript_works`), and a program that cannot be compiled is
reported at a place in its text, for an edit only where comments move into a body (`run_fair`).
-/

namespace Respell

open List Text

variable {tree : Tree} {n : Node}

theorem PatchError.AtNode.fair {e : PatchError} (h : e.AtNode tree) : e.Fair tree := by
  cases e with
  | edit => exact h.elim
  | violation | obstacle | binding =>
    obtain ⟨m, hm, rfl⟩ := h
    exact ⟨hm.inside.cuts, fun _ h => by cases h⟩

/-- The comments and the tokens of a tree are those of its text. -/
theorem Parse.parted_ofText (text : List Char) : (Parse.ofText text).tree.Parted := by
  obtain ⟨f, hf⟩ := Parse.exists_block text
  rw [Tree.Parted, ← Option.some.inj (hf.ofEvents?_eq.symm.trans hf.ofEvents?_eq_some)]
  exact Lexed.parted_ofText text

namespace Javascript

open Script

variable {w : Ground} {nodes : List Node} {k : Construct} {p : Patcher Construct} {c : Node} {done : List Span}

/-! ## Parts -/

/-- A construct at work on the node of the ground. -/
structure Bears (w : Ground) (nodes : List Node) (k : Construct) (p : Patcher Construct) : Prop where
  signs : w.tree.root.Signs w.tree
  sound : w.node.Sound w.tree
  mem : w.node ∈ w.tree.root.descendants
  site : p.site.On w.node
  fits : Fits w.tree w.node.unwrapParens nodes k
  parts : List.Forall₂ (Shows w.tree) nodes p.parts

namespace Bears

variable (h : Bears w nodes k p)
include h

theorem inner : w.node.unwrapParens.Sound w.tree := h.sound.unwrapParens.1

theorem holds (hc : c ∈ w.node.descendants) : w.Holds c.range := by
  obtain ⟨hsound, hstart, hstop⟩ := h.sound.descendant hc
  have hlt := hsound.inside.nonempty
  exact ⟨hsound.places.1, hsound.places.2, hstart, by omega, hstop⟩

theorem whole_holds : w.Holds w.node.range := h.holds w.node.self_mem_descendants

theorem content_holds : w.Holds w.node.unwrapParens.range := h.holds w.node.unwrapParens_mem

theorem child_holds (hc : c ∈ w.node.unwrapParens.children) : w.Holds c.range :=
  h.holds (Node.descendants_child w.node.unwrapParens_mem hc)

theorem token_holds {t : Token} (ht : t ∈ w.tree.tokens) (hs : t.isSignificant = true)
    (hin : w.node.unwrapParens.range.start ≤ t.range.start ∧ t.range.start < t.range.stop ∧
      t.range.stop ≤ w.node.unwrapParens.range.stop) : w.Holds t.range := by
  have hwithin := h.content_holds.within
  exact ⟨⟨t, ht, hs, Or.inl rfl⟩, ⟨t, ht, hs, Or.inr rfl⟩, by omega, by omega, by omega⟩

theorem mem_descendants (hc : c ∈ nodes) : c ∈ w.node.descendants :=
  Node.descendants_trans w.node.unwrapParens_mem
    (Node.mem_descendants_of_elements (h.fits.mem_descendants h.inner hc))

theorem part_sound (hc : c ∈ nodes) : c.Sound w.tree := (h.sound.descendant (h.mem_descendants hc)).1

theorem part_holds (hc : c ∈ nodes) : w.Holds c.range := h.holds (h.mem_descendants hc)

theorem part_within (hc : c ∈ nodes) :
    w.node.unwrapParens.range.start ≤ c.range.start ∧ c.range.stop ≤ w.node.unwrapParens.range.stop :=
  (h.inner.descendant (Node.mem_descendants_of_elements (h.fits.mem_descendants h.inner hc))).2

theorem encloses (hc : c ∈ nodes) {r : Span} (hr : r ∈ c.sourceOnly w.tree) : c.range.Encloses r :=
  ((h.part_sound hc).mem_sourceOnly.1 hr).2

theorem patch {i : Nat} (hi : nodes[i]? = some c) (hapart : ∀ s ∈ done, s.Apart c.range) :
    Works w nodes done (Script.patch i : Work Unit) (c.range :: done) :=
  .patchWhole hi (h.part_sound (mem_of_getElem? hi)) (h.part_holds (mem_of_getElem? hi)) hapart

theorem patchAndRender {q : Part} (hq : q.Of nodes c) (hapart : ∀ s ∈ done, s.Apart c.range) :
    Works w nodes done (Script.patchAndRender q : Work String) (c.range :: done) :=
  .patchAndRender hq.place hq.site.whole (h.part_sound (mem_of_getElem? hq.place))
    (h.part_holds (mem_of_getElem? hq.place)) hapart

theorem render (ds : List Node) {q : Part} (hq : q.Of nodes c) (hapart : ∀ d ∈ ds, d.range.Apart c.range) :
    Works w nodes (ds.map fun d => d.range) (Script.patchAndRender q : Work String)
      ((c :: ds).map fun d => d.range) := by
  refine h.patchAndRender hq fun s hs => ?_
  obtain ⟨d, hd, rfl⟩ := mem_map.1 hs
  exact hapart d hd

theorem render? (ds : List Node) {o : Option Node} {q : Option Part} (hq : Option.Rel (Part.Of nodes) o q)
    (hapart : ∀ d ∈ ds, ∀ c ∈ o.toList, d.range.Apart c.range) :
    Works w nodes (ds.map fun d => d.range) (q.mapM Script.patchAndRender : Work (Option String))
      ((o.toList ++ ds).map fun d => d.range) := by
  cases hq with
  | none => exact Works.pure _
  | some hq => exact (h.render ds hq fun d hd => hapart d hd _ mem_cons_self).bind fun _ => Works.pure _

theorem patchAll (hk : w.node.unwrapParens.kind ≠ .function) (hapart : ∀ c ∈ nodes, ∀ s ∈ done, s.Apart c.range) :
    Works w nodes done ((List.range p.parts.length).forM Script.patch : Work PUnit)
      ((nodes.map fun c => c.range).reverse ++ done) := by
  refine Works.forM_spans _ (fun i x c hx hc done hdone => ?_) ?_ (h.fits.pairwise_apart h.inner hk) hapart
  · obtain ⟨-, rfl⟩ := List.getElem?_eq_some_iff.1 hx
    rw [getElem_range]
    exact h.patch hc hdone
  · rw [length_range, h.parts.length_eq]

end Bears

/-! ## Comments and braces -/

section Comments

open Patching

/-- Nothing was replaced but pieces of comments, in front of the pieces that are left. -/
structure Respelling (tree : Tree) (rest : List (Span × String)) (g : Context) : Prop where
  fine : g.Fine tree
  made : ∀ r ∈ g.editor.active, tree.InComment r.range ∧ ∀ d ∈ rest, r.range.stop ≤ d.1.start
  left : ∀ d ∈ rest, d.1.Inside tree.text ∧ tree.InComment d.1
  ordered : rest.Pairwise fun a b => a.1.stop ≤ b.1.start

theorem Respelling.overwrite {E : PatchError → Prop} {d : Span × String} {rest : List (Span × String)} {g : Context}
    (h : Respelling tree (d :: rest) g) : Safe E (Patching.overwrite d.1 d.2) g fun _ => Respelling tree rest := by
  obtain ⟨⟨hin, hcomment⟩, hleft⟩ := forall_mem_cons.1 h.left
  obtain ⟨hbefore, hordered⟩ := pairwise_cons.1 h.ordered
  obtain ⟨e, he, hfine, -, hactive⟩ := h.fine.editor.overwrite hin
    (fun r hr => Or.inl ((h.made r hr).2 d mem_cons_self)) d.2
  refine Safe.get_bind ?_
  simp only [he]
  refine ⟨⟨hfine, Editor.settled_of_overwrite h.fine.settled hin.nonempty he, h.fine.tree⟩, fun r hr => ?_, hleft,
    hordered⟩
  rcases hactive r hr with hr | hr
  · exact (h.made r hr).imp_right fun h c hc => h c (mem_cons_of_mem _ hc)
  · exact hr ▸ ⟨hcomment, hbefore⟩

/-- Comments are respelled before all else, and no two of their delimiters touch. -/
theorem respellComments_safe {E : PatchError → Prop} (hparted : tree.Parted) :
    Safe E respellComments (.ofTree tree .main) fun _ => Respelling tree [] := by
  refine Safe.get_bind (Safe.forM (I := fun cs => Respelling tree (cs.flatMap fun c => c.delimiters tree.text)) ?_
    fun c cs g hg => Safe.forM (I := fun ds => Respelling tree (ds ++ cs.flatMap fun c => c.delimiters tree.text)) hg
      fun d ds g hg => hg.overwrite)
  have hdelimiters (c : Comment) (hc : c ∈ tree.comments) := (hparted.scanned c hc).delimiters
  refine ⟨⟨Editor.fine_ofText _, forall_mem_nil _, rfl⟩, fun _ hr => absurd hr not_mem_nil, fun d hd => ?_, ?_⟩
  · obtain ⟨c, hc, hd⟩ := mem_flatMap.1 hd
    obtain ⟨hin, hle⟩ := (hdelimiters c hc).1 d hd
    exact ⟨hin, c, hc, hle⟩
  · refine pairwise_flatMap.2 ⟨fun c hc => (hdelimiters c hc).2, ?_⟩
    refine hparted.ordered.imp_of_mem fun {a b} ha hb hle c hc d hd => ?_
    have hc := (hdelimiters a ha).1 c hc
    have hd := (hdelimiters b hb).1 d hd
    have hle : a.range.stop ≤ b.range.start := hle
    omega

/-- Behind a place, a comment with nothing but space before it comes before the next token. -/
theorem stop_le_next (hordered : Reach.Ordered tree.text tree.tokens) (hparted : tree.Parted) {c : Comment}
    (hc : c ∈ tree.comments) {stop cursor : Nat} (hcursor : cursor ≤ tree.next stop)
    (hboundary : isBoundary tree.text cursor = true)
    (hspace : (Text.slice tree.text ⟨cursor, c.range.start⟩).toList.all isSpace = true) :
    c.range.stop ≤ tree.next stop := by
  have hin := (hparted.scanned c hc).inside
  refine Tree.le_next (fun t ht hs hstop => ?_) (le_byteLength_of_isBoundary hin.stop)
  refine (hparted.apart c hc t ht hs).resolve_left fun hle => ?_
  -- The first character of the token would be part of the space.
  obtain ⟨d, rest, ⟨front, htext, hfront⟩, hblank, hbreak, -⟩ := hparted.code t ht hs
  have hlt := (hordered.inside t ht hs).nonempty
  have hnext := hordered.next_le ht hs hstop
  obtain ⟨before, inside, after, hslice, hbefore, hinside⟩ := exists_slice? hboundary hin.start (by omega)
  have hmem : d ∈ inside := by
    refine CharAt.mem (b := t.range.start) ⟨front, rest, htext, by omega, ?_⟩
      ⟨before, by rw [hslice, append_assoc], hbefore⟩ (by omega) (by omega)
    have := d.utf8Size_pos
    omega
  rw [Text.slice, slice?_eq_some.2 ⟨before, after, hslice, hbefore, hinside⟩, Option.getD_some,
    String.toList_ofList, all_eq_true] at hspace
  have := hspace d hmem
  simp [isSpace, hblank, hbreak] at this

/-- A comment that ends here can be taken out behind a place. -/
def EndsAt (tree : Tree) (stop last : Nat) : Prop :=
  ∃ c ∈ tree.comments, c.range.stop = last ∧ stop ≤ c.range.start ∧ last ≤ tree.next stop

/-- Comments are taken up to the end of one of them, in front of the next token. -/
theorem takeComments_safe {stop : Nat} {cs : List Comment}
    (hcs : ∀ c ∈ cs, c ∈ w.tree.comments ∧ stop ≤ c.range.start) {indent cursor : Nat} {taken : Taken}
    (hcursor : cursor ≤ w.tree.next stop ∧ isBoundary w.tree.text cursor = true)
    (htaken : ∀ last ∈ taken.stop, EndsAt w.tree stop last) {g : Context} (hg : w.Progress done g) :
    Safe (PatchError.Fair w.tree) (takeComments indent cursor taken cs) g fun taken' g' =>
      (∀ last ∈ taken'.stop, EndsAt w.tree stop last) ∧ w.Progress done g' := by
  induction cs generalizing cursor taken g with
  | nil => exact ⟨htaken, hg⟩
  | cons c cs ih =>
    obtain ⟨⟨hc, hle⟩, hcs⟩ := forall_mem_cons.1 hcs
    unfold takeComments
    apply Safe.get_bind
    dsimp only
    split
    · rename_i hspace
      rw [Bool.and_eq_true, Context.slice, hg.fine.tree] at hspace
      have hnext := stop_le_next hg.sound.ordered hg.parted hc hcursor.1 hcursor.2 hspace.1
      have hset : Safe (PatchError.Fair w.tree) (set (g.moveComment c.range.start).2 : Patching PUnit) g
          fun _ g' => w.Progress done g' := by
        refine Works.of_modify (f := fun g => (g.moveComment c.range.start).2) (fun g => ?_) g hg
        unfold Context.moveComment
        split
        iterate 2 exact ⟨rfl, rfl⟩
      refine hset.bind fun _ g' hg' => ih hcs ⟨hnext, (hg.parted.scanned c hc).inside.stop⟩ ?_ hg'
      split
      · intro last hlast
        cases hlast
        exact ⟨c, hc, rfl, hle, hnext⟩
      · exact htaken
    · exact ⟨htaken, hg⟩

/-- Comments move into a body that is done. -/
theorem closingBrace_works {owner body : Site} (hbody : body.On c) (hkind : c.kind = .block)
    (hmem : c ∈ w.tree.root.descendants) (hdone : c.range ∈ done) : Works w done (closingBrace owner body) done := by
  refine Works.of_get fun g htree => ?_
  rw [htree]
  split
  on_goal 2 => exact Works.pure _
  rename_i hindented
  have htokens : ∃ first last, c.tokens = some (first + 1, last) ∧ w.tree.kindAt first = .indent := by
    rw [isIndented, hbody.node, Node.unwrapParens_of_ne (by rw [hkind]; decide)] at hindented
    split at hindented
    case h_1 first last heq => exact ⟨first, last, heq, beq_iff_eq.1 hindented⟩
    case h_2 => cases hindented
  refine Works.bind (Works.of_get fun g htree => fun g' hg' => ?_) fun _ => Works.pure _
  have hcs : ∀ d ∈ g.tree.comments.filter fun d => body.whole.stop ≤ d.range.start,
      d ∈ w.tree.comments ∧ c.range.stop ≤ d.range.start := by
    intro d hd
    rw [htree, mem_filter, hbody.whole] at hd
    exact ⟨hd.1, by simpa using hd.2⟩
  have hplace := (hg'.holds _ hdone).stop
  have hboundary := hg'.boundary hplace
  have hstart : c.range.stop ≤ w.tree.next c.range.stop :=
    Tree.le_next (fun _ _ _ h => h) (le_byteLength_of_isBoundary hboundary)
  rw [hbody.whole] at hcs ⊢
  refine (takeComments_safe hcs ⟨hstart, hboundary⟩ (by simp) hg').bind fun taken g₁ h₁ => ?_
  suffices hremove : Works w done (taken.stop.forM fun last => Patching.remove ⟨c.range.stop, last⟩) done from
    (hremove.bind fun _ => Works.pure _) g₁ h₁.2
  cases hstop : taken.stop with
  | none => exact Works.pure _
  | some last =>
    obtain ⟨d, hd, rfl, hle, hnext⟩ := h₁.1 last hstop
    have hin := (hg'.parted.scanned d hd).inside
    have hx : Span.Inside w.tree.text ⟨c.range.stop, d.range.stop⟩ :=
      ⟨Nat.lt_of_le_of_lt hle hin.nonempty, hboundary, hin.stop⟩
    refine Works.take hx hdone rfl hnext fun existing => ⟨hx.cuts, fun cause h => ?_⟩
    cases h
    exact ⟨existing, c, hmem, d, hd, rfl, hkind, htokens, hle, hnext⟩

end Comments

/-! ## Blocks -/

/-- Lines go in front of the first statement of a body. -/
theorem prependBodyLines_works (h : Bears w nodes k p) {body : Part} (hbody : body.Of nodes c) (hk : c.kind = .block)
    (hapart : ∀ s ∈ done, s.Apart c.range) (lines : List String) :
    Works w nodes (c.pieces ++ done) (prependBodyLines p body lines) (c.range :: done) := by
  have hmem := mem_of_getElem? hbody.place
  have hsound := h.part_sound hmem
  refine Works.settle _ ?_ (h.part_holds hmem) hsound.pieces.1 hsound.pieces.2
  unfold prependBodyLines
  split
  · exact Works.pure _
  dsimp only
  split
  · rename_i s hs
    obtain ⟨d, hd, hsite⟩ := exists_first hbody h.parts hk hs
    have hchild := mem_of_mem_head? hd
    have hholds := h.holds (Node.descendants_child (h.mem_descendants hmem) hchild)
    refine Works.forM fun line _ => Works.step
      (.prependLineBefore (hsite.whole ▸ hholds.empty_start) (fun s hs => ?_) line)
    obtain ⟨hin, hstart, hstop⟩ := hsound.children_apart.2 d hchild
    have hlt := hin.nonempty
    rw [hsite.whole]
    simp only [Span.Spares, Span.Apart, Span.empty]
    rcases mem_append.1 hs with hs | hs
    · have := hsound.start_le_of_pieces hk hd hs
      omega
    · have := hapart s hs
      simp only [Span.Apart] at this
      omega
  · exact Works.stop (hbody.site.content_inside hsound).cuts

theorem declare_works (name : String) (hoist : Bool) :
    Works w nodes done (modify (·.declare name hoist) : Work PUnit) done := Works.step (.of_modify fun _ => ⟨rfl, rfl⟩)

/-- What has a body at its end puts lines into it and closes it. -/
theorem body_works (h : Bears w nodes k p) {body : Part} (hbody : body.Of nodes c) (hk : c.kind = .block)
    (hdone : ∀ s ∈ done, s.stop ≤ c.range.start)
    (hall : ∀ r ∈ w.node.unwrapParens.sourceOnly w.tree, r ∈ c.sourceOnly w.tree ∨ ∃ s ∈ done, s.Encloses r)
    (lines : List String) :
    Works w nodes done (do
      Script.patchPart body
      prependBodyLines p body lines
      let close ← closingBrace p.site body.site
      Patching.insert p.site.content.stop close) [w.node.range] := by
  have hmem := mem_of_getElem? hbody.place
  have hroot := Node.descendants_trans h.mem (h.mem_descendants hmem)
  have hsound := h.part_sound hmem
  have hlt := hsound.inside.nonempty
  have hstop := (h.part_within hmem).2
  have hapart : ∀ s ∈ done, s.Apart c.range := fun s hs => Or.inl (hdone s hs)
  rw [h.site.content]
  refine (Works.patch hbody.place hsound (h.part_holds hmem) hapart).bind fun _ =>
    (prependBodyLines_works h hbody hk hapart lines).bind fun _ =>
    (Works.step (closingBrace_works hbody.site hk hroot mem_cons_self)).bind fun _ =>
    (Works.step (.insert h.content_holds.empty_stop (forall_mem_cons.2 ⟨?_, fun s hs => ?_⟩) _
      (Or.inr (Or.inr h.inner.closes)))).finish fun r hr => ?_
  · simp only [Span.Spares, Span.Apart, Span.empty]
    omega
  · have := hdone s hs
    simp only [Span.Spares, Span.Apart, Span.empty]
    omega
  · rcases hall r hr with hr | ⟨s, hs, hle⟩
    · exact ⟨c.range, mem_cons_self, h.encloses hmem hr⟩
    · exact ⟨s, mem_cons_of_mem _ hs, hle⟩

theorem Block.patchOne_works (b : Block) (h : Bears w nodes k p) {i : Nat} (hi : nodes[i]? = some c) {s : Site}
    (hs : s.On c) (hapart : ∀ s ∈ done, s.Apart c.range) (isLast : Bool) :
    Works w nodes done (b.patchOne s i isLast) (c.range :: done) := by
  have hholds := h.part_holds (mem_of_getElem? hi)
  have hends {o : Nat} := Span.spares_ends (o := o) hholds.within.2.1 hapart
  have hbegin : Patching.Works w done (modify (·.beginDeclarations b.isScopeBody)) done :=
    .of_modify fun _ => ⟨rfl, rfl⟩
  have hend : Patching.Works w (c.range :: done) (modifyGet (·.endDeclarations)) (c.range :: done) :=
    .of_modifyGet fun _ => ⟨rfl, rfl⟩
  unfold patchOne Patching.prependLineBefore
  rw [hs.whole]
  refine (Works.step hbegin).bind fun _ => (h.patch hi hapart).bind fun _ => (Works.step hend).bind fun names => ?_
  refine Works.when (fun _ => Works.step (.prepend hholds.empty_start (hends (Or.inl rfl)) _))
    (Works.of_get fun g _ => ?_)
  have hcloses := (h.part_sound (mem_of_getElem? hi)).closes
  exact Works.when (fun _ => Works.step (.insert hholds.empty_stop (hends (Or.inr rfl)) _ (Or.inr (Or.inr hcloses))))
    (Works.last fun _ => Works.step (.of_get fun _ _ => .prepend hholds.empty_start (hends (Or.inl rfl)) _))

theorem Block.patchStatement_works (b : Block) (h : Bears w nodes k p) (hk : w.node.unwrapParens.kind ≠ .function) :
    Works w nodes [] (b.patchStatement p) ((nodes.map fun c => c.range).reverse ++ []) := by
  refine Works.forM_spans _ (fun i x c hx hc done hdone => ?_) ?_ (h.fits.pairwise_apart h.inner hk) fun _ _ =>
    forall_mem_nil _
  · obtain ⟨q, hq, rfl⟩ : ∃ q, p.parts[i]? = some q ∧ (q, i) = x := by simpa [getElem?_zipIdx] using hx
    obtain ⟨d, hd, hshows⟩ := forall₂_getElem? h.parts hq
    cases hd.symm.trans hc
    exact b.patchOne_works h hc hshows.site hdone _
  · rw [length_zipIdx, h.parts.length_eq]

/-! ## Conditionals -/

namespace Conditional

variable {k : Conditional} {start : Nat} {left right : Site}

/-- A brace takes the place of `then`, if it is there. -/
theorem openBrace_works (hstart : w.Holds (.empty start)) (hcloses : w.tree.Closes start) (hc : w.Holds c.range)
    (hle : start ≤ c.range.start)
    (hthen : ∀ t, w.tree.keywordBetween? left right .thenKw = some t → t.range.Inside w.tree.text ∧
      start ≤ t.range.start ∧ t.range.stop ≤ c.range.start ∧ w.tree.Closes t.range.stop)
    (hdone : ∀ s ∈ done, s.stop ≤ start ∨ c.range.stop ≤ s.start) :
    ∃ x : Span, (x.start = start ∧ x.stop ≤ c.range.start) ∧
      (∀ t, w.tree.keywordBetween? left right .thenKw = some t → x.Encloses t.range) ∧
      Patching.Works w done (openBrace start left right) (x :: done) := by
  have hwithin := hc.within
  cases ht : w.tree.keywordBetween? left right .thenKw with
  | none =>
    refine ⟨.empty start, ⟨rfl, hle⟩, by simp, .of_get fun g htree => ?_⟩
    simp only [htree, ht]
    refine (Patching.Works.insert hstart (fun s hs => ?_) _ (Or.inr (Or.inr hcloses))).empty hstart
    have := hdone s hs
    simp only [Span.Spares, Span.Apart, Span.empty]
    omega
  | some t =>
    obtain ⟨hin, hbefore, hbehind, hend⟩ := hthen t ht
    have hlt := hin.nonempty
    refine ⟨⟨start, t.range.stop⟩, ⟨rfl, hbehind⟩, fun u hu => ?_, .of_get fun g htree => ?_⟩
    · cases hu
      exact ⟨hbefore, Nat.le_refl _⟩
    · have hx : w.Holds ⟨start, t.range.stop⟩ :=
        ⟨hstart.start, hend.place, hstart.within.1, by simp only; omega, by simp only; omega⟩
      simp only [htree, ht]
      refine .overwrite hx (fun _ => hcloses) (fun s hs => ?_) _
      have := hdone s hs
      simp only [Span.Spares, Span.Apart]
      omega

section Patch

variable (h : Bears w nodes (.conditional k) p)
include h

theorem patchValue_works : Works w nodes [] (k.patchValue p) [w.node.range] := by
  obtain ⟨s, hs⟩ := exists_stands h.inner h.fits
  obtain ⟨⟨hcondition, hconsequent⟩, hstart, hbetween, -, halternate⟩ := hs.order h.inner
  have hlt := hcondition.inside.nonempty
  have hlt' := hconsequent.inside.nonempty
  have hholds {q : Part} {c : Node} (hq : q.Of nodes c) : w.Holds c.range := h.part_holds (mem_of_getElem? hq.place)
  have hbefore := h.content_holds.empty_start.join (hholds hs.condition).empty_start hstart
  have hmiddle := (hholds hs.condition).empty_stop.join (hholds hs.consequent).empty_start hbetween
  have hkind : w.node.unwrapParens.kind ≠ .function := by
    rw [beq_iff_eq.1 h.fits.standsFor]
    decide
  have hparts {xs : List Span} (c : Node) (hc : c ∈ nodes) : c.range ∈ (nodes.map fun c => c.range).reverse ++ xs :=
    mem_append_left _ (mem_reverse.2 (mem_map_of_mem hc))
  have hthen (t : Token) (ht : w.tree.keywordBetween? k.condition.site k.consequent.site .thenKw = some t) :
      Span.Encloses ⟨s.condition.range.stop, s.consequent.range.start⟩ t.range := by
    obtain ⟨-, hle, hge, -⟩ :=
      w.tree.keywordBetween?_inside hcondition hconsequent hs.condition.site hs.consequent.site rfl ht
    exact ⟨hle, hge⟩
  unfold patchValue
  simp only [hs.condition.site.whole, hs.consequent.site.whole, h.site.content]
  refine (Works.step (.remove hbefore (forall_mem_nil _))).bind fun _ =>
    (Works.step (.overwrite hmiddle (fun _ => hcondition.closes) ?_ _)).bind fun _ => ?_
  · simp [Span.Spares, Span.Apart]
    omega
  rcases hs.alternate with ⟨ha, hk⟩ | ⟨a, q, ha, hk, hq⟩
  · rw [hk]
    refine (Works.pure _).bind fun _ => (h.patchAll hkind ?_).bind fun _ =>
      (Works.last fun _ => Works.step (.insert (hholds hs.consequent).empty_stop ?_ _
        (Or.inr (Or.inr hconsequent.closes)))).finish
        (hs.covered h.inner (fun _ => h.part_sound) hparts (fun t ht => ⟨_, by simp, hthen t ht⟩) fun a q ha' => ?_)
    · simp [hs.parts, ha, Span.Apart]
      omega
    · simp [hs.parts, ha, Span.Spares, Span.Apart, Span.empty]
      omega
    · cases ha.symm.trans ha'
  · obtain ⟨hnode, hle, -⟩ := halternate a ha
    have hlt'' := hnode.inside.nonempty
    have hafter : w.Holds ⟨s.consequent.range.stop, q.site.whole.start⟩ := by
      rw [hq.site.whole]
      exact (hholds hs.consequent).empty_stop.join (hholds hq).empty_start hle
    rw [hk]
    refine (Works.step (.overwrite hafter (fun _ => hconsequent.closes) ?_ _)).bind fun _ =>
      (h.patchAll hkind ?_).bind fun _ => (Works.last fun hnone => by cases hnone).finish
        (hs.covered h.inner (fun _ => h.part_sound) hparts
        (fun t ht => ⟨_, by simp, hthen t ht⟩) fun a' q' ha' hk' _ t ht => ?_)
    · simp [hq.site.whole, Span.Spares, Span.Apart]
      omega
    · simp [hs.parts, ha, hq.site.whole, Span.Apart]
      omega
    · cases ha.symm.trans ha'
      cases hk.symm.trans hk'
      obtain ⟨-, hle, hge, -⟩ := w.tree.keywordBetween?_inside hconsequent hnode hs.consequent.site hq.site rfl ht
      exact ⟨_, mem_append_right _ mem_cons_self, hle, hq.site.whole ▸ hge⟩

/-- A body is patched between braces. -/
theorem braced_works {q : Part} (hq : q.Of nodes c) (hk : c.kind = .block) (hstart : w.Holds (.empty start))
    (hcloses : w.tree.Closes start) (hle : start ≤ c.range.start)
    (hthen : ∀ t, w.tree.keywordBetween? left q.site .thenKw = some t → t.range.Inside w.tree.text ∧
      start ≤ t.range.start ∧ t.range.stop ≤ c.range.start ∧ w.tree.Closes t.range.stop)
    (hdone : ∀ s ∈ done, s.stop ≤ start ∨ c.range.stop ≤ s.start) {f : String → Work Unit}
    (hf : ∀ close (x : Span), x.start = start ∧ x.stop ≤ c.range.start →
      (∀ t, w.tree.keywordBetween? left q.site .thenKw = some t → x.Encloses t.range) →
      Works w nodes (c.range :: x :: done) (f close) [w.node.range]) :
    Works w nodes done (do
      openBrace start left q.site
      Script.patchPart q
      let close ← closingBrace p.site q.site
      f close) [w.node.range] := by
  have hmem := mem_of_getElem? hq.place
  have hlt := (h.part_sound hmem).inside.nonempty
  have hroot := Node.descendants_trans h.mem (h.mem_descendants hmem)
  obtain ⟨x, hx, henclosed, hopen⟩ := openBrace_works hstart hcloses (h.part_holds hmem) hle hthen hdone
  refine (Works.step hopen).bind fun _ =>
    (h.patch hq.place (forall_mem_cons.2 ⟨Or.inl hx.2, fun s hs => ?_⟩)).bind fun _ =>
    (Works.step (closingBrace_works hq.site hk hroot mem_cons_self)).bind fun close => hf close x hx henclosed
  have := hdone s hs
  simp only [Span.Apart]
  omega

theorem patchStatement_works : Works w nodes [] (k.patchStatement p) [w.node.range] := by
  obtain ⟨-, -, hle, hge⟩ := h.sound.unwrapParens
  obtain ⟨s, hs⟩ := exists_stands h.inner h.fits
  obtain ⟨⟨hcondition, hconsequent⟩, hstart, hbetween, hstop, halternate⟩ := hs.order h.inner
  have hlt := hcondition.inside.nonempty
  have hlt' := hconsequent.inside.nonempty
  have hholds {q : Part} {c : Node} (hq : q.Of nodes c) : w.Holds c.range := h.part_holds (mem_of_getElem? hq.place)
  have hbefore := h.whole_holds.empty_start.join h.content_holds.empty_start hle
  have hafter := h.content_holds.empty_stop.join h.whole_holds.empty_stop hge
  have hthen {t : Token} :=
    w.tree.keywordBetween?_inside (k := .thenKw) (t := t) hcondition hconsequent hs.condition.site
      hs.consequent.site rfl
  unfold patchStatement
  simp only [h.site.whole, h.site.content, hs.condition.site.whole, hs.consequent.site.whole]
  refine (Works.step (.remove hbefore (forall_mem_nil _))).bind fun _ =>
    (Works.step (.remove hafter ?_)).bind fun _ => (h.patch hs.condition.place ?_).bind fun _ =>
    (Works.step (.surroundInParens (hholds hs.condition) hs.condition.site.whole hcondition.closes ?_ ?_)).bind fun _ =>
    braced_works h hs.consequent hs.shape.consequent (hholds hs.condition).empty_stop hcondition.closes hbetween
      (fun _ => hthen) ?_ fun close x hx henclosed => ?_
  · simp [Span.Spares, Span.Apart]
    omega
  · simp [Span.Apart]
    omega
  iterate 2
    · simp [Span.Spares, Span.Apart, Span.empty]
      omega
  · simp
    omega
  have hcovered {xs : List Span} (hxs : x ∈ xs) (hparts : ∀ c ∈ nodes, c.range ∈ xs) :=
    hs.covered h.inner (fun _ => h.part_sound) hparts fun t ht => ⟨x, hxs, henclosed t ht⟩
  rcases hs.alternate with ⟨ha, hk⟩ | ⟨a, q, ha, hk, hq⟩
  · rw [hk]
    refine (Works.step (.insert (hholds hs.consequent).empty_stop ?_ _ (Or.inr (Or.inr hconsequent.closes)))).finish
      (hcovered (by simp) (by simp [hs.parts, ha]) fun a q ha' => ?_)
    · simp [Span.Spares, Span.Apart, Span.empty]
      omega
    · cases ha.symm.trans ha'
  · obtain ⟨hnode, -, hend⟩ := halternate a ha
    obtain ⟨keyword, helse, -, hthen⟩ := hs.shape.else_between h.inner ha hs.consequent.site hq.site
    have hkeyword {k : Kind} {t : Token} (hk : k.isLayout = false) :=
      w.tree.keywordBetween?_inside (t := t) hconsequent hnode hs.consequent.site hq.site hk
    obtain ⟨hin, hle', hge', hcloses⟩ := hkeyword rfl helse
    have hwidth := hin.nonempty
    have hwidth' := hnode.inside.nonempty
    have hwithin := (hholds hq).within
    have hbehind : w.Holds (.empty keyword.range.stop) :=
      ⟨hcloses.place, hcloses.place, by simp only [Span.empty]; omega⟩
    rw [hk]
    refine Works.of_get fun g htree => ?_
    simp only [htree, helse, hq.site.whole]
    refine (Works.step (.overwrite ((hholds hs.consequent).empty_stop.join hbehind (by omega))
      (fun _ => hconsequent.closes) ?_ _)).bind fun _ => ?_
    · simp [Span.Spares, Span.Apart]
      omega
    split
    · rename_i hif
      refine (h.patch hq.place ?_).finish (hcovered (by simp) (by simp [hs.parts, ha]) fun a' q' ha' hk' hblock => ?_)
      · simp [Span.Apart]
        omega
      · cases ha.symm.trans ha'
        cases hk.symm.trans hk'
        rw [Site.kind, hq.site.node, Node.unwrapParens_of_ne (by rw [hblock]; decide), hblock] at hif
        cases hif
    · rename_i hif
      have hblock : a.node.kind = .block := by
        refine (hs.shape.alternative a ha).node.resolve_left fun hk => hif ?_
        rw [Site.kind, hq.site.node, Node.unwrapParens_of_ne (by rw [hk]; decide), hk]
      refine braced_works h hq hblock hbehind hcloses hge' (fun t ht => ?_) ?_ fun close y hy henclosed =>
        (Works.step (.insert (hholds hq).empty_stop ?_ _ (Or.inr (Or.inr hnode.closes)))).finish
          (hcovered (by simp) (by simp [hs.parts, ha]) fun a' q' ha' hk' hblock t ht => ⟨y, by simp, ?_⟩)
      · obtain ⟨hin, -, hge, hplace⟩ := hkeyword rfl ht
        exact ⟨hin, hthen t ht, hge, hplace⟩
      · simp
        omega
      · simp [Span.Spares, Span.Apart, Span.empty]
        omega
      · cases hk.symm.trans hk'
        exact henclosed t ht

end Patch

end Conditional

/-! ## Loops -/

namespace Loop

variable {l : Loop} {target : Node}

theorem cachedTarget_works (h : Bears w nodes k p) (htarget : l.target.Of nodes target) (code hint : String) :
    Patching.Works w done (l.cachedTarget p.site code hint) done := by
  unfold cachedTarget
  split
  case h_4 =>
    have hsound := h.part_sound (mem_of_getElem? htarget.place)
    refine (Patching.Works.claim (htarget.site.whole_inside hsound).cuts).bind fun name =>
      (Patching.Works.of_holds fun hdone => ?_).bind fun _ => .pure name
    refine .prependLineBefore (h.site.whole ▸ h.whole_holds.empty_start) (fun s hs => ?_) _
    rw [h.site.whole]
    exact (hdone s hs).spared (Or.inl rfl)
  all_goals exact .pure code

theorem opening_works (h : Bears w nodes k p) (htarget : l.target.Of nodes target) (declare : String)
    (key value : Option String) (code : String) :
    Works w nodes done (l.opening p.site declare key value code) done := by
  have hcached (hint : String) : Patching.Works w done _ done := cachedTarget_works h htarget code hint
  unfold opening
  dsimp only
  split
  iterate 2 exact (Works.step (hcached _)).bind fun _ => Works.pure _
  · exact Works.pure _
  · exact Works.stop (h.site.content_inside h.sound).cuts

/-- All parts of the header are patched and read before the header is replaced. -/
theorem patchStatement_works (h : Bears w nodes (.loop l) p) :
    Works w nodes [] (l.patchStatement p) [w.node.range] := by
  have hm := h.inner
  have hfits := h.fits
  cases hfits with
  | @loop v target body _ view viewTarget viewBody leading partKey partValue partTarget partFilter partBody =>
  obtain ⟨s, hs, hleading, rfl⟩ := exists_leading hm view viewTarget viewBody leading
  cases viewTarget
  cases viewBody
  have hlast := last_on partFilter partTarget
  obtain ⟨⟨hplace, hbody⟩, hheader⟩ := headerStop_spec hm hs hleading hlast partBody.site
  have hlt := (h.part_sound (mem_of_getElem? partTarget.place)).inside.nonempty
  have hbounds := hheader _ s.header.target_mem
  have hwidth : w.node.unwrapParens.range.start ≠ l.headerStop w.tree := by omega
  have hspan : w.Holds ⟨w.node.unwrapParens.range.start, l.headerStop w.tree⟩ := by
    have hwithin := (h.part_holds (mem_of_getElem? partBody.place)).within
    exact ⟨h.content_holds.start, hplace, h.content_holds.within.1, by simp only; omega, by simp only; omega⟩
  have hpairwise := h.fits.pairwise_apart hm (by rw [loop_kind view]; decide)
  obtain ⟨hpairwise, -, -⟩ := pairwise_append.1 hpairwise
  obtain ⟨hpairwise, -, hfilter⟩ := pairwise_append.1 hpairwise
  obtain ⟨hpairwise, -, htarget⟩ := pairwise_append.1 hpairwise
  obtain ⟨-, -, hvalue⟩ := pairwise_append.1 hpairwise
  refine Works.of_get fun g htree => ?_
  rw [htree]
  dsimp only
  split
  · exact Works.stop (h.site.content_inside h.sound).cuts
  · rename_i keyword hkeyword
    rw [h.site.node] at hkeyword
    rw [start_of_keyword hm hkeyword]
    have hmem (c : Node) : c ∈ (s.header.view w.tree s.keyword s.thenToken s.body).filter.toList ++
        s.header.target :: ((s.header.view w.tree s.keyword s.thenToken s.body).value.toList ++
          ((s.header.view w.tree s.keyword s.thenToken s.body).key.toList ++ [])) → c ∈ s.header.nodes := by
      intro hc
      simp only [append_nil, mem_append, mem_cons, Option.mem_toList] at hc
      rcases hc with hc | rfl | hc | hc
      · exact Header.mem_of_filter hc
      · exact s.header.target_mem
      · exact Header.mem_of_value hc
      · exact Header.mem_of_key hc
    refine (h.render? [] partKey (by simp)).bind fun key => (h.render? _ partValue ?_).bind fun value =>
      (h.render _ partTarget ?_).bind fun code => (h.render? _ partFilter ?_).bind fun filter => ?_
    · intro d hd c hc
      exact hvalue d (by simpa using hd) c hc
    · intro d hd
      exact htarget d (by simpa [or_comm] using hd) _ (by simp [Header.view])
    · intro d hd c hc
      exact hfilter d (by simpa [Header.view, or_comm, or_left_comm] using hd) c hc
    refine Works.when (fun _ => Works.forM fun b _ => declare_works _ _)
      ((opening_works h partTarget _ _ _ _).bind fun _ =>
        (Works.step (.overwrite hspan (fun heq => absurd heq hwidth) (fun r hr => ?_) _)).bind fun _ =>
        body_works h partBody hs.body ?_ (fun r hr => ?_) _)
    · obtain ⟨c, hc, rfl⟩ := mem_map.1 hr
      exact Or.inr (hheader c (hmem c hc))
    · refine forall_mem_cons.2 ⟨hbody, fun r hr => ?_⟩
      obtain ⟨c, hc, rfl⟩ := mem_map.1 hr
      exact Nat.le_trans (hheader c (hmem c hc)).2 hbody
    · exact (sourceOnly_cases hm hs hleading hlast partBody.site hr).imp_right fun hle => ⟨_, mem_cons_self, hle⟩

end Loop

/-! ## Assignments -/

namespace Assignment

variable {a : Assignment}

theorem declareAll_works (a : Assignment) : Works w nodes done a.declareAll done :=
  Works.forM fun _ _ => declare_works _ _

section Patch

variable (h : Bears w nodes (.assignment a) p)
include h

theorem existence_works (f : String → String → String) :
    Works w nodes [] (do
      let lhs ← Script.patchAndRender a.lhs
      let rhs ← Script.patchAndRender a.rhs
      Patching.overwrite p.site.content (f lhs rhs) : Work Unit) [w.node.range] := by
  obtain ⟨lhs, rhs, hlhs, hrhs, hapart, -⟩ := exists_sides h.inner h.fits
  have hwidth := Nat.ne_of_lt h.inner.inside.nonempty
  rw [h.site.content]
  refine (h.render [] hlhs (forall_mem_nil _)).bind fun _ => (h.render [lhs] hrhs ?_).bind fun _ =>
    (Works.step (.overwrite h.content_holds (fun heq => absurd heq hwidth) (fun s hs => Or.inr ?_) _)).finish
      fun r hr => ⟨_, mem_cons_self, (h.inner.mem_sourceOnly.1 hr).2⟩
  · simpa using hapart
  · obtain ⟨c, hc, rfl⟩ := mem_map.1 hs
    rcases mem_pair.1 hc with rfl | rfl
    · exact h.part_within (mem_of_getElem? hrhs.place)
    · exact h.part_within (mem_of_getElem? hlhs.place)

/-- Both sides are patched where they stand. -/
theorem sides_works (hplain : a.isExistence = false) :
    ∃ done, Works w nodes [] (Script.patchPart a.lhs : Work Unit) done ∧
      Works w nodes done (Script.patchPart a.rhs : Work Unit) [w.node.range] := by
  obtain ⟨lhs, rhs, hlhs, hrhs, hapart, hsides⟩ := exists_sides h.inner h.fits
  refine ⟨_, h.patch hlhs.place (forall_mem_nil _),
    (h.patch hrhs.place (by simpa using hapart)).finish fun r hr => ?_⟩
  rcases hsides hplain r hr with hr | hr
  · exact ⟨lhs.range, by simp, h.encloses (mem_of_getElem? hlhs.place) hr⟩
  · exact ⟨rhs.range, by simp, h.encloses (mem_of_getElem? hrhs.place) hr⟩

theorem patchValue_works : Works w nodes [] (a.patchValue p) [w.node.range] := by
  refine a.declareAll_works.bind fun _ => ?_
  split
  · exact existence_works h _
  · obtain ⟨_, hlhs, hrhs⟩ := sides_works h (Bool.eq_false_iff.2 ‹_›)
    exact hlhs.bind fun _ => hrhs

theorem patchStatement_works : Works w nodes [] (a.patchStatement p) [w.node.range] := by
  unfold patchStatement
  split
  · exact a.declareAll_works.bind fun _ => existence_works h _
  · obtain ⟨_, hlhs, hrhs⟩ := sides_works h (Bool.eq_false_iff.2 ‹_›)
    refine hlhs.bind fun _ => hrhs.bind fun _ => ?_
    split
    · rw [h.site.whole]
      exact Works.step (.insert h.whole_holds.empty_start
        (fun s hs => mem_singleton.1 hs ▸ h.whole_holds.spared (Or.inl rfl)) _ (Or.inr (Or.inl rfl)))
    · exact a.declareAll_works

end Patch

end Assignment

/-! ## Functions -/

namespace Function

variable {f : Function} {scope : Nat}

/-- A parameter is patched from left to right: what it binds, and then its default value. -/
theorem patchParam_works (h : Bears w nodes k p) (hmem : c ∈ w.node.descendants)
    (hc : Syntax.isParameter c.kind = true) {q : Param} (hq : q.Fits nodes (.ofNode c))
    (hapart : ∀ s ∈ done, s.Apart c.range) (lines : Lines) :
    Works w nodes done (patchParam scope lines q) (c.range :: done) := by
  obtain ⟨hsound, -⟩ := h.sound.descendant hmem
  obtain ⟨hnode, hbinding, hvalue⟩ := hsound.param_spans hc
  obtain ⟨hbound, hstart, hstop⟩ := hsound.descendant hbinding
  have hlt := hbound.inside.nonempty
  have hholds := h.holds (Node.descendants_trans hmem hbinding)
  have hremove := hholds.empty_stop.join (h.holds hmem).empty_stop hstop
  have hdefault := hq.default?
  have hsource := fun r => @param_sourceOnly _ _ _ r _ hsound hc hq
  unfold patchParam
  rw [hq.binding, hq.defaultRange, hnode] at *
  generalize (ParamView.ofNode c).binding = b, (ParamView.ofNode c).default? = o at *
  have hbefore : ∀ s ∈ done, s.Apart b.range ∧ s.Apart ⟨b.range.stop, c.range.stop⟩ := fun s hs => by
    have := hapart s hs
    simp only [Span.Apart] at this ⊢
    omega
  extract_lets jp
  -- `xs` is what has been replaced of the binding.
  have hrest (xs : List Span) (hxs : ∀ s ∈ xs, s = b.range) (hall : q.isMember = true → b.range ∈ xs)
      (x : String × List String) : Works w nodes (xs ++ done) (jp x) (c.range :: done) := by
    have hcovers {ys : List Span} (hys : q.default?.isSome = true → ⟨b.range.stop, c.range.stop⟩ ∈ ys) :
        w.tree.Covers (ys ++ xs) c.range := fun r hr hle =>
      (hsource r (hsound.mem_sourceOnly.2 ⟨hr, hle⟩)).elim
        (fun h => ⟨_, mem_append_right _ (hall h.1), h.2⟩) fun h => ⟨_, mem_append_left _ (hys h.1), h.2⟩
    dsimp only [jp]
    cases hd : q.default? with
    | none =>
      have hcovers : w.tree.Covers ([] ++ xs) c.range := hcovers (by simp [hd])
      exact (Works.pure _).settle xs (h.holds hmem) (fun s hs => hxs s hs ▸ ⟨hstart, hstop⟩) hcovers
    | some d =>
      rw [hd] at hdefault
      obtain ⟨e, rfl, he⟩ := exists_of_rel_some hdefault
      obtain ⟨hle, hge⟩ := hvalue e rfl
      have hwidth := (h.part_sound (mem_of_getElem? he.place)).inside.nonempty
      refine ((h.patchAndRender he (forall_mem_append.2 ⟨fun s hs => ?_, fun s hs => ?_⟩)).bind fun _ =>
        (Works.step (.remove hremove (forall_mem_cons.2 ⟨Or.inr ⟨hle, hge⟩, forall_mem_append.2 ⟨fun s hs => ?_,
          fun s hs => Or.inl (hbefore s hs).2⟩⟩))).bind fun _ => Works.pure _).settle
          ([⟨b.range.stop, c.range.stop⟩, e.range] ++ xs) (h.holds hmem) (forall_mem_append.2 ⟨?_, fun s hs => ?_⟩)
          (hcovers fun _ => mem_cons_self)
      · exact hxs s hs ▸ Or.inl hle
      · have := hapart s hs
        simp only [Span.Apart] at this ⊢
        omega
      · exact hxs s hs ▸ Or.inl (Or.inl (Nat.le_refl _))
      · simp [Span.Encloses]
        omega
      · exact hxs s hs ▸ ⟨hstart, hstop⟩
  split
  · exact (Works.step (.claim hbound.inside.cuts)).bind fun name =>
      (Works.step (.overwrite hholds (fun heq => absurd heq (Nat.ne_of_lt hlt))
        (fun s hs => Or.inl (hbefore s hs).1) name)).bind fun _ =>
      (Works.pure _).bind fun x => hrest [b.range] (by simp) (fun _ => mem_cons_self) x
  · exact (Works.pure _).bind fun x => hrest [] (forall_mem_nil _) (fun h => absurd h ‹_›) x

section Patch

variable (h : Bears w nodes (.function f) p)
include h

theorem patchParams_works {cs : List Node} (hs : Stands w.tree w.node.unwrapParens nodes f cs) (site : Site) :
    Works w nodes [] (f.patchParams site) (cs.map fun c => c.range).reverse := by
  refine Works.of_get fun g _ => ?_
  rw [← append_nil (List.reverse _)]
  refine (Works.foldlM _ (fun i q c hq hc lines done hapart => ?_) hs.params.length_eq.symm hs.pairwise
    fun _ _ => forall_mem_nil _).bind fun _ => Works.pure _
  obtain ⟨d, hd, hfits⟩ := forall₂_getElem? hs.params hq
  cases hd.symm.trans hc
  obtain ⟨hmem, hparam⟩ := hs.param c (mem_of_getElem? hc)
  exact patchParam_works h (Node.descendants_trans w.node.unwrapParens_mem hmem) hparam hfits hapart lines

theorem patchBraced_works : Works w nodes [] (f.patchBraced p) [w.node.range] := by
  obtain ⟨cs, hs⟩ := exists_stands h.inner h.fits
  have hbefore : ∀ s ∈ (cs.map fun c => c.range).reverse, s.stop ≤ f.arrow.range.start := by
    simpa using hs.before
  have hlt := hs.within.2.1
  have hholds := h.token_holds hs.arrow.1 hs.arrow.2 hs.within
  have harrow (text : String) := Patching.Works.overwrite hholds (fun heq => absurd heq (Nat.ne_of_lt hlt))
    (fun s hs => Or.inl (Or.inl (hbefore s hs))) text
  -- What stands in front of the body is done with the arrow.
  have hall (r : Span) (hr : r ∈ w.node.unwrapParens.sourceOnly w.tree) :
      (∃ s ∈ f.arrow.range :: (cs.map fun c => c.range).reverse, s.Encloses r) ∨
        ∃ q ∈ f.body, ∃ b, q.Of nodes b ∧ r ∈ b.sourceOnly w.tree := by
    rcases hs.sourceOnly r hr with ⟨c, hc, hr⟩ | ⟨-, hle⟩ | hr
    · exact Or.inl ⟨c.range, mem_cons_of_mem _ (mem_reverse.2 (mem_map_of_mem hc)),
        ((h.inner.descendant (hs.param c hc).1).1.mem_sourceOnly.1 hr).2⟩
    · exact Or.inl ⟨_, mem_cons_self, hle⟩
    · exact Or.inr hr
  unfold patchBraced
  refine Works.when (fun _ => ?_) ((patchParams_works h hs _).bind fun lines => ?_)
  · cases hl : f.paramList with
    | none => exact Works.pure _
    | some r =>
      obtain ⟨list, hmem, rfl⟩ := hs.paramList r hl
      exact Works.step (.insert (h.child_holds hmem).empty_start (forall_mem_nil _) _ (Or.inl rfl))
  · cases hb : f.body with
    | none =>
      refine (Works.step (harrow _)).finish fun r hr => (hall r hr).resolve_right ?_
      simp [hb]
    | some q =>
      obtain ⟨b, hq, hblock, hle⟩ := hs.body q hb
      refine (Works.step (harrow _)).bind fun _ => body_works h hq hblock
        (forall_mem_cons.2 ⟨hle, fun s hs => by have := hbefore s hs; omega⟩) (fun r hr => ?_) lines
      refine (hall r hr).symm.imp_left fun ⟨q', hq', b', hb', hr⟩ => ?_
      cases hb.symm.trans hq'
      cases hq.place.symm.trans hb'.place
      exact hr

/-- A function without braces is bound, and its parameters are names. -/
theorem patchConcise_works (hconcise : f.isConcise = true) : Works w nodes [] f.patchConcise [w.node.range] := by
  obtain ⟨cs, hs⟩ := exists_stands h.inner h.fits
  obtain ⟨hbound, hlines⟩ : f.isBound = true ∧ f.hasParamLines = false := by
    cases h.fits with
    | function _ _ _ _ _ concise => exact concise hconcise
  have hall (r : Span) (hr : r ∈ w.node.unwrapParens.sourceOnly w.tree) :
      ∃ q ∈ f.body, ∃ b, q.Of nodes b ∧ r ∈ b.sourceOnly w.tree := by
    rcases hs.sourceOnly r hr with ⟨c, hc, hr⟩ | ⟨harrow, -⟩ | hr
    · obtain ⟨i, hi⟩ := getElem?_of_mem hc
      obtain ⟨q, hq, hfits⟩ := forall₂_getElem?_left hs.params hi
      obtain ⟨hmem, hparam⟩ := hs.param c hc
      simp only [hasParamLines, any_eq_false, Bool.or_eq_true, not_or] at hlines
      rcases param_sourceOnly (h.inner.descendant hmem).1 hparam hfits hr with ⟨hmember, -⟩ | ⟨hdefault, -⟩
      · exact absurd hmember (hlines q (mem_of_getElem? hq)).1
      · exact absurd hdefault (hlines q (mem_of_getElem? hq)).2
    · cases hbound.symm.trans harrow
    · exact hr
  have hbody {done : List Span} (hdone : ∀ s ∈ done, s.stop ≤ f.arrow.range.stop) :
      Works w nodes done (f.body.forM Script.patchPart : Work PUnit) [w.node.range] := by
    cases hb : f.body with
    | none =>
      refine (Works.pure _).finish fun r hr => absurd (hall r hr) ?_
      simp [hb]
    | some q =>
      obtain ⟨b, hq, -, hle⟩ := hs.body q hb
      refine (h.patch hq.place fun s hs => Or.inl (Nat.le_trans (hdone s hs) hle)).finish fun r hr => ?_
      obtain ⟨q', hq', b', hb', hr⟩ := hall r hr
      cases hb.symm.trans hq'
      cases hq.place.symm.trans hb'.place
      exact ⟨b.range, mem_cons_self, h.encloses (mem_of_getElem? hq.place) hr⟩
  unfold patchConcise
  split
  · refine (Works.step (.overwrite (h.token_holds hs.arrow.1 hs.arrow.2 hs.within)
      (fun heq => absurd heq (Nat.ne_of_lt hs.within.2.1)) (forall_mem_nil _) _)).bind fun _ => hbody ?_
    simp
  · exact hbody (forall_mem_nil _)

theorem patchValue_works : Works w nodes [] (f.patchValue p) [w.node.range] := by
  unfold patchValue
  split
  · exact patchConcise_works h ‹_›
  · exact patchBraced_works h

theorem patchStatement_works : Works w nodes [] (f.patchStatement p) [w.node.range] := by
  have hends (o : Nat) (ho : o = w.node.range.start ∨ o = w.node.range.stop) :
      ∀ s ∈ [w.node.range], (Span.empty o).Spares s := fun s hs => mem_singleton.1 hs ▸ h.whole_holds.spared ho
  exact (patchValue_works h).bind fun _ => Works.last fun _ =>
    Works.step (.surroundInParens h.whole_holds h.site.whole h.sound.closes (hends _ (Or.inl rfl))
      (hends _ (Or.inr rfl)))

end Patch

end Function

/-! ## Expressions -/

theorem patchExpression_works {xs : List (Span × String)} (h : Bears w nodes (.expression xs) p) :
    Works w nodes [] (patchExpression xs p) [w.node.range] := by
  have hm := h.inner
  have hsigns := (h.signs.descendant h.mem).descendant w.node.unwrapParens_mem
  have hfits := h.fits
  cases hfits with
  | expression plain view =>
  have hspans : ∀ x ∈ respelled w.tree w.node.unwrapParens, (w.Holds x.1 ∧ x.1.start ≠ x.1.stop) ∧
      ∀ c ∈ w.node.unwrapParens.children, x.1.Apart c.range := by
    intro x hx
    obtain ⟨i, hi, t, ht, hs, heq⟩ := respelled_cases hm hx
    obtain ⟨hin, hapart⟩ := hm.own_apart hi ht hs
    have hholds := h.token_holds (mem_of_getElem? ht) hs hin
    rcases heq with heq | ⟨c, hchildren, hle, heq, -⟩
    · exact heq ▸ ⟨⟨hholds, Nat.ne_of_lt hin.2.1⟩, hapart⟩
    · have hc := h.child_holds (c := c) (by simp [hchildren])
      rw [heq, hchildren]
      exact ⟨⟨hholds.empty_start.join hc.empty_start (by omega), by simp only; omega⟩,
        fun d hd => mem_singleton.1 hd ▸ Or.inl (Nat.le_refl _)⟩
  refine (Works.forM_spans Prod.fst (R := fun s x => x.Spares s) (fun i x y hx hy done hdone => ?_) rfl ?_
    fun _ _ => forall_mem_nil _).bind fun _ => (h.patchAll ?_ ?_).finish fun r hr => ?_
  · cases hx.symm.trans hy
    obtain ⟨⟨hholds, hwidth⟩, -⟩ := hspans x (mem_of_getElem? hx)
    exact Works.step (.overwrite hholds (fun heq => absurd heq hwidth) hdone _)
  · exact pairwise_of_forall_mem_list fun x hx y hy => respelled_spares hm hy hx
  · intro hk
    rw [hk] at plain
    cases plain
  · intro c hc s hs
    obtain ⟨x, hx, rfl⟩ := mem_map.1 (mem_reverse.1 (append_nil _ ▸ hs))
    exact (hspans x hx).2 c hc
  · rcases Node.sourceOnly_cases hr with ⟨i, hi, t, ht, hs, rfl⟩ | ⟨c, hc, hr⟩
    · obtain ⟨x, hx, hle⟩ := exists_respelled hm hi ht hs hsigns plain view
      exact ⟨x.1, mem_append_right _ (mem_append_left _ (mem_reverse.2 (mem_map_of_mem hx))), hle⟩
    · exact ⟨c.range, mem_append_left _ (mem_reverse.2 (mem_map_of_mem hc)), h.encloses hc hr⟩

/-! ## The stage -/

/-- A construct other than a block is edited as a whole. -/
theorem Bears.pieces (h : Bears w nodes k p) (hk : ∀ b, k ≠ .block b) : w.node.pieces = [w.node.range] := by
  refine if_neg fun hblock => (h.fits.eq_block ?_).elim hk
  rw [Node.unwrapParens_of_ne (by rw [hblock]; decide), hblock]

/-- A block is edited in its statements. -/
theorem Bears.works_pieces {b : Block} (h : Bears w nodes (.block b) p) {s : Work Unit}
    (hs : Works w nodes [] s ((nodes.map fun c => c.range).reverse ++ [])) : Works w nodes [] s w.node.pieces := by
  have hm := h.inner
  have hfits := h.fits
  rw [append_nil] at hs
  cases hfits with
  | block kind =>
  by_cases hblock : w.node.kind = .block
  · rw [Node.unwrapParens_of_ne (by rw [hblock]; decide)] at hs ⊢
    rw [Node.pieces, if_pos hblock]
    refine ⟨fun g hg => (hs.careful g hg).mono fun _ _ hg' =>
      hg'.mono (fun r hr => ?_) (fun r hr => ?_) fun r hr s _ hle => ?_⟩
    · exact ⟨r, mem_reverse.1 hr, Nat.le_refl _, Nat.le_refl _⟩
    · exact hg'.holds r (mem_reverse.2 hr)
    · exact ⟨r, mem_reverse.2 hr, hle⟩
  · rw [Node.pieces, if_neg hblock]
    refine hs.finish fun r hr => ?_
    obtain ⟨c, hc, hr⟩ := hm.sourceOnly_subset_children (by rw [kind]; rfl) hr
    exact ⟨c.range, mem_reverse.2 (mem_map_of_mem hc), h.encloses hc hr⟩

theorem returning_works {value : Option Part} (h : Bears w nodes (.returning value) p) :
    Works w nodes [] (value.forM Script.patchPart : Work PUnit) [w.node.range] := by
  have hm := h.inner
  have hfits := h.fits
  have hperm := hfits.children_perm hm
  cases hfits with
  | returning kind partValue =>
  have hall (r : Span) (hr : r ∈ w.node.unwrapParens.sourceOnly w.tree) :
      ∃ c ∈ w.node.unwrapParens.children.head?, r ∈ c.sourceOnly w.tree := by
    obtain ⟨c, hc, hr⟩ := hm.sourceOnly_subset_children (by rw [kind]; rfl) hr
    exact ⟨c, Option.mem_toList.1 ((hperm (by rw [kind]; decide)).subset hc), hr⟩
  cases value with
  | none =>
    refine (Works.pure _).finish fun r hr => ?_
    obtain ⟨c, hc, -⟩ := hall r hr
    rw [Option.mem_def.1 hc] at partValue
    cases partValue
  | some q =>
    obtain ⟨c, hc, hq⟩ := exists_of_rel_some partValue
    refine (h.patch hq.place (forall_mem_nil _)).finish fun r hr => ?_
    obtain ⟨d, hd, hr⟩ := hall r hr
    cases hc.symm.trans hd
    exact ⟨c.range, mem_cons_self, h.encloses (mem_of_getElem? hq.place) hr⟩

theorem patchScript_works (h : Bears w nodes p.construct p) :
    Works w nodes [] (p.patchScript hooks) w.node.pieces := by
  have hviolation (cause : Violation) : PatchError.Fair w.tree (.violation cause p.site.content) :=
    ⟨(h.site.content_inside h.sound).cuts, fun _ h => by cases h⟩
  unfold Patcher.patchScript
  simp only [hooks, patchValue, patchStatement]
  generalize p.construct = k at h
  cases k with
  | block b =>
    have hk : w.node.unwrapParens.kind ≠ .function := by
      cases h.fits with
      | block kind => rw [kind]; decide
    split
    · exact h.works_pieces (h.patchAll hk fun _ _ => forall_mem_nil _)
    · exact h.works_pieces (b.patchStatement_works h hk)
  | conditional c =>
    rw [h.pieces (by simp)]
    split
    · exact Conditional.patchValue_works h
    · exact Conditional.patchStatement_works h
  | loop l =>
    rw [h.pieces (by simp)]
    split
    · exact Works.fail (hviolation _)
    · exact Loop.patchStatement_works h
  | function f =>
    rw [h.pieces (by simp)]
    split
    · exact Function.patchValue_works h
    · exact Function.patchStatement_works h
  | assignment a =>
    rw [h.pieces (by simp)]
    split
    · exact Assignment.patchValue_works h
    · exact Assignment.patchStatement_works h
  | returning value =>
    rw [h.pieces (by simp)]
    split
    · exact Works.fail (hviolation _)
    · exact returning_works h
  | expression xs =>
    rw [h.pieces (by simp), ite_self]
    exact patchExpression_works h

/-- Nothing but comments has been respelled when the patching begins. -/
theorem Respelling.asks {g g' : Context} (hg : Respelling tree [] g) (hparted : tree.Parted) (hn : n.Sound tree)
    (halike : g.Alike g') : tree.Asks n g' := by
  refine ⟨hn, hparted, ⟨halike.editor ▸ hg.fine.editor, halike.editor ▸ hg.fine.settled,
    halike.tree.trans hg.fine.tree⟩, fun r hr => Or.inr ?_,
    fun r hr => ⟨r, hr, Span.contains_iff.2 ⟨Nat.le_refl _, Nat.le_refl _⟩⟩, fun r hr => Or.inl hr, forall_mem_nil _,
    forall_mem_nil _⟩
  exact (hg.made r (halike.editor ▸ hr)).1

/-- The patcher stands for a node of the tree. -/
structure Placed (tree : Tree) (n : Node) (p : Patcher Construct) : Prop where
  signs : tree.root.Signs tree
  sound : n.Sound tree
  mem : n ∈ tree.root.descendants
  shows : Shows tree n p

namespace Placed

variable (h : Placed tree n p)
include h

theorem violation (cause : Violation) : PatchError.Fair tree (.violation cause p.site.content) :=
  ⟨(h.shows.site.content_inside h.sound).cuts, fun _ h => by cases h⟩

/-- Patching it works if at most comments were respelled in its text. -/
theorem careful : ∃ nodes, List.Forall₂ (Placed tree) nodes p.parts ∧ ∀ g, tree.Asks n g →
    (p.patchScript hooks).Careful tree.Asks tree.Leaves (PatchError.Fair tree) nodes g fun _ => tree.Leaves n g := by
  obtain ⟨hsigns, hn, hmem, nodes, hsite, hfits, hparts, -, -, -⟩ := h
  have hbears (before : List Replacement) : Bears ⟨tree, n, before⟩ nodes p.construct p :=
    ⟨hsigns, hn, hmem, hsite, hfits, hparts⟩
  refine ⟨nodes, ?_, fun g hg => (patchScript_works (hbears g.editor.active)).careful g hg⟩
  refine ((forall₂_and_left _ _).2 ⟨fun c hc => ?_, hparts⟩).imp
    fun c q (h : (c.Sound tree ∧ c ∈ tree.root.descendants) ∧ _) => ⟨hsigns, h.1.1, h.1.2, h.2⟩
  have hbears := hbears []
  exact ⟨hbears.part_sound hc, Node.descendants_trans hmem (hbears.mem_descendants hc)⟩

omit h in
theorem call_safe (h : Patcher.Tame (Placed tree n) (PatchError.Fair tree) p) {g : Context} (hg : tree.Asks n g) :
    (p.call hooks .patch g).Safe (PatchError.Fair tree) fun _ _ => tree.Leaves n g :=
  (Patcher.call_safe (S := Placed tree) (fun _ _ h => h.violation) (fun _ _ h _ => h.careful) h hg).mono
    fun _ _ _ h => h.2

/-- A tree of patchers can be run once the comments are respelled, and clears its node. -/
theorem runAll_safe (hparted : tree.Parted) {g : Context} (hg : Respelling tree [] g) :
    Patching.Safe (PatchError.Fair tree) (p.runAll hooks) g fun _ g' =>
      g'.Fine tree ∧ ∀ r ∈ n.sourceOnly tree, g'.editor.Replaces r := by
  refine Patcher.runAll_safe (prepare_safe p.height n p g h.sound hg.fine.tree h.shows)
    (fun _ => PatchError.AtNode.fair) ?_
  rintro q g₁ ⟨hq, -, halike⟩
  exact (call_safe (Or.inl ⟨h.signs, h.sound, h.mem, hq⟩) (hg.asks hparted h.sound halike)).mono fun _ _ _ h =>
    ⟨h.fine, h.replaces⟩

end Placed

/-- The edits of the whole stage are at boundaries of the text, and replace all that JavaScript does not have. -/
structure Emitted (tree : Tree) (g : Context) : Prop where
  fine : g.Fine tree
  replaces : tree.root.Sound tree → ∀ r ∈ tree.root.sourceOnly tree, g.editor.Replaces r

/-- A tree without faults is emitted, and then nothing is left of what JavaScript does not have; or the reason why not
is at a place in its text.  If an edit is refused, it is to take out comments behind an indented body. -/
theorem run_fair (hparted : tree.Parted) (hsigns : tree.root.Signs tree) (h : tree.root.Sound tree ∨ tree.Blank)
    (hroot : tree.root.kind = .program) {block : Node} (hchildren : tree.root.children = [block])
    (hblock : block.kind = .block) :
    Patching.Safe (PatchError.Fair tree) (run tree) (.ofTree tree .main) fun _ => Emitted tree := by
  suffices hmade : (∀ e, patchers tree (.ofTree tree) = .error e → PatchError.Fair tree e) ∧
      ∀ p g, patchers tree (.ofTree tree) = .ok p → Respelling tree [] g →
        Patching.Safe (PatchError.Fair tree) (p.runAll hooks) g fun _ => Emitted tree by
    refine run_safe (respellComments_safe hparted) hmade.1 hmade.2 fun g hg => Patching.Safe.get_bind ?_
    simp only [hg.fine.editor.render]
    exact hg
  rw [patchers_eq hroot hchildren]
  have hmem : block ∈ tree.root.children := by simp [hchildren]
  rcases h with h | h
  · have hbecame := became_fold block (h.child hmem) (by rw [hblock]; decide)
    refine ⟨fun e he => ?_, fun p g hp hg => ?_⟩
    · rw [he] at hbecame
      exact PatchError.AtNode.fair hbecame
    · rw [hp] at hbecame
      have hplaced : Placed tree block p := ⟨hsigns, h.child hmem, Node.mem_descendants_of_child hmem, hbecame.1⟩
      refine (hplaced.runAll_safe hparted hg).mono fun _ g' hg' => ⟨hg'.1, fun _ r hr => hg'.2 r ?_⟩
      obtain ⟨c, hc, hr⟩ := h.sourceOnly_subset_children (by rw [hroot]; rfl) hr
      rw [hchildren] at hc
      cases mem_singleton.1 hc
      exact hr
  · obtain ⟨block', hchildren', -, -, hnil⟩ := h.block
    cases hchildren.symm.trans hchildren'
    obtain ⟨isScopeBody, hfold⟩ := fold_empty hblock hnil (.ofTree tree)
    rw [hfold]
    refine ⟨fun e he => (by cases he), fun p g hp hg => ?_⟩
    cases hp
    rw [Patching.Safe, runAll_empty]
    refine ⟨hg.fine, fun hsound => ?_⟩
    have hlt := hsound.inside.nonempty
    rw [h.range] at hlt
    exact absurd hlt (Nat.lt_irrefl _)

end Javascript

end Respell
