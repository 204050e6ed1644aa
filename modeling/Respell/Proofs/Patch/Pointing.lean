import Respell.Proofs.Editor.Soundness
import Respell.Proofs.Lexing.Coverage
import Respell.Proofs.Normalize.Rewriting
import Respell.Proofs.Patch.Careful
import Respell.Proofs.Tree.Items
import Respell.Proofs.Tree.SourceOnly

/-!
Edits that stay clear of each other, clear away what JavaScript does not have, and fail at a place in the text.

A construct edits at the ends of tokens, which are the ends of its parts too.  While it is at work, what has been
replaced since it began lies near spans that are known: those it has replaced itself, and the parts that are done.  The
gap behind such a span counts as near, for comments may have been taken from it.  No token ends inside a gap, so an edit
that holds each of the spans or leaves it alone does the same with the gaps, and is not refused.

So a step *works* if it leads from one list of such spans to another, whatever else the text has seen.  What can still
be refused is to take out the comments behind an indented body, since the gap they stand in may belong to a construct
further up (`EditError.MovesComments`).

All tokens in the spans that JavaScript does not have are replaced.  So a span may be taken for others only if it has no
more of these than they have.
-/

namespace Respell

open List Text

variable {text : List Char} {tree : Tree} {α β κ : Type} {n c : Node} {o o' : Nat} {x r s t : Span}

/-! ## Places and gaps -/

/-- A place where a token of code starts or ends. -/
def Tree.Place (tree : Tree) (o : Nat) : Prop :=
  ∃ t ∈ tree.tokens, t.isSignificant = true ∧ (o = t.range.start ∨ o = t.range.stop)

/-- A token of code ends at the place. -/
def Tree.Closes (tree : Tree) (o : Nat) : Prop := ∃ t ∈ tree.tokens, t.isSignificant = true ∧ t.range.stop = o

theorem Tree.Closes.place (h : tree.Closes o) : tree.Place o := by
  obtain ⟨t, ht, hs, rfl⟩ := h
  exact ⟨t, ht, hs, Or.inr rfl⟩

/-- The text that was put in stands in front of what was there, or it begins a function or a declaration, or it stands
behind a token. -/
def Insert.Settled (tree : Tree) (i : Insert) : Prop :=
  i.order < 0 ∨ i.text = "function" ∨ i.text = "let " ∨ tree.Closes i.offset

/-- The comments and the tokens of code of the tree, apart from each other. -/
def Tree.Parted (tree : Tree) : Prop := Lexed.Parted tree.text ⟨tree.tokens, tree.comments⟩

/-- Where the next token of code starts, or else the text ends. -/
def Tree.next (tree : Tree) (o : Nat) : Nat :=
  ((tree.tokens.find? fun t => t.isSignificant && decide (o ≤ t.range.start)).map (·.range.start)).getD
    (byteLength tree.text)

theorem Tree.le_next {b : Nat} (h : ∀ t ∈ tree.tokens, t.isSignificant = true → o ≤ t.range.start → b ≤ t.range.start)
    (hb : b ≤ byteLength tree.text) : b ≤ tree.next o := by
  unfold next
  cases hf : tree.tokens.find? fun t => t.isSignificant && decide (o ≤ t.range.start) with
  | none => exact hb
  | some u =>
    have hu := find?_some hf
    simp only [Bool.and_eq_true, decide_eq_true_eq] at hu
    exact h u (mem_of_find?_eq_some hf) hu.1 hu.2

/-- The span lies in the other one or in the gap behind it. -/
def Tree.Near (tree : Tree) (s r : Span) : Prop :=
  s.start ≤ r.start ∧ r.stop ≤ s.stop ∨ s.stop ≤ r.start ∧ r.stop ≤ tree.next s.stop

/-- The other span lies in the span. -/
abbrev Span.Encloses (x s : Span) : Prop := x.start ≤ s.start ∧ s.stop ≤ x.stop

/-- The span holds the other one or leaves it alone. -/
def Span.Spares (x s : Span) : Prop := s.Apart x ∨ x.start ≤ s.start ∧ s.stop ≤ x.stop

/-- The ends of a span are free if all else is apart from it. -/
theorem Span.spares_ends {done : List Span} (hle : x.start ≤ x.stop) (hdone : ∀ s ∈ done, s.Apart x)
    (ho : o = x.start ∨ o = x.stop) : ∀ s ∈ x :: done, (empty o).Spares s := by
  intro s hs
  simp only [Spares, Apart, empty]
  rcases mem_cons.1 hs with rfl | hs
  · omega
  · have := hdone s hs
    simp only [Apart] at this
    omega

section Ordered

variable (h : Reach.Ordered tree.text tree.tokens)
include h

theorem Reach.Ordered.next_le {t : Token} (ht : t ∈ tree.tokens) (hs : t.isSignificant = true)
    (ho : o ≤ t.range.start) : tree.next o ≤ t.range.start := by
  unfold Tree.next
  cases hf : tree.tokens.find? fun t => t.isSignificant && decide (o ≤ t.range.start) with
  | none =>
    have := find?_eq_none.1 hf t ht
    simp [hs, ho] at this
  | some u =>
    obtain ⟨hu, front, back, heq, hfront⟩ := find?_eq_some_iff_append.1 hf
    have hbefore := h.before
    rw [heq] at ht hbefore
    obtain ⟨-, hback, -⟩ := pairwise_append.1 hbefore
    simp only [Bool.and_eq_true] at hu
    rcases mem_append.1 ht with ht | ht
    · have := hfront t ht
      simp [hs, ho] at this
    · rcases mem_cons.1 ht with rfl | ht
      · exact Nat.le_refl _
      · have hle := (pairwise_cons.1 hback).1 t ht hu.1 hs
        have hne := (h.inside u (by simp [heq]) hu.1).nonempty
        simp only [Option.map_some, Option.getD_some]
        omega

theorem Reach.Ordered.apart {t u : Token} (ht : t ∈ tree.tokens) (hu : u ∈ tree.tokens) (hts : t.isSignificant = true)
    (hus : u.isSignificant = true) : t = u ∨ t.range.Apart u.range := by
  obtain ⟨i, hi⟩ := getElem?_of_mem ht
  obtain ⟨j, hj⟩ := getElem?_of_mem hu
  rcases Nat.lt_trichotomy i j with hij | rfl | hij
  · exact Or.inr (Or.inl (h.lt hij hi hj hts hus))
  · exact Or.inl (Option.some.inj (hi.symm.trans hj))
  · exact Or.inr (Or.inr (h.lt hij hj hi hus hts))

/-- No token ends in the gap behind a place. -/
theorem Tree.Place.next_le (ho : tree.Place o) (ho' : tree.Place o') (hlt : o < o') : tree.next o ≤ o' := by
  obtain ⟨u, hu, hus, hou⟩ := ho
  obtain ⟨t, ht, hts, hot⟩ := ho'
  have htne := (h.inside t ht hts).nonempty
  have hune := (h.inside u hu hus).nonempty
  have hle : o ≤ t.range.start := by
    rcases h.apart ht hu hts hus with rfl | hapart
    · omega
    · unfold Span.Apart at hapart
      omega
  have := h.next_le ht hts hle
  omega

theorem Tree.Near.mono (hs : tree.Place s.stop) (ht : tree.Place t.stop) (hle : s.start ≤ s.stop)
    (hst : t.Encloses s) (hnear : tree.Near s r) : tree.Near t r := by
  unfold Near at hnear ⊢
  rcases Nat.eq_or_lt_of_le hst.2 with heq | hlt
  · rw [heq] at hnear hle
    omega
  · have := hs.next_le h ht hlt
    omega

theorem Tree.Place.outside (ho : tree.Place o) (hparted : tree.Parted) {c : Comment} (hc : c ∈ tree.comments) :
    o ≤ c.range.start ∨ c.range.stop ≤ o := by
  obtain ⟨t, ht, hs, hot⟩ := ho
  have hne := (h.inside t ht hs).nonempty
  have hapart := hparted.apart c hc t ht hs
  omega

theorem Tree.Place.boundary (ho : tree.Place o) : isBoundary tree.text o = true := by
  obtain ⟨t, ht, hs, rfl | rfl⟩ := ho
  · exact (h.inside t ht hs).start
  · exact (h.inside t ht hs).stop

end Ordered

/-- The first and the last token of a node are its ends. -/
theorem Node.Sound.ends (h : n.Sound tree) :
    ∃ first last s t, n.tokens = some (first, last) ∧
      (tree.token? first = some s ∧ s.isSignificant = true ∧ s.range.start = n.range.start) ∧
      tree.token? last = some t ∧ t.isSignificant = true ∧ t.range.stop = n.range.stop := by
  obtain ⟨a, k, -, r, hr, htokens, hrange⟩ := h.placed.1.reach
  have hrange : n.range = r.range := hrange
  obtain ⟨s, hs, hsig, hstart⟩ := hr.first
  obtain ⟨t, ht, htsig, hstop⟩ := hr.last
  exact ⟨r.first, r.last, s, t, htokens, ⟨hs, hsig, hrange ▸ hstart⟩, ht, htsig, hrange ▸ hstop⟩

theorem Node.Sound.closes (h : n.Sound tree) : tree.Closes n.range.stop := by
  obtain ⟨_, _, _, t, -, -, ht, hsig, hstop⟩ := h.ends
  exact ⟨t, mem_of_getElem? ht, hsig, hstop⟩

theorem Node.Sound.places (h : n.Sound tree) : tree.Place n.range.start ∧ tree.Place n.range.stop := by
  obtain ⟨_, _, s, _, -, ⟨hs, hsig, hstart⟩, -⟩ := h.ends
  exact ⟨⟨s, mem_of_getElem? hs, hsig, Or.inl hstart.symm⟩, h.closes.place⟩

theorem Node.Sound.next_le (h : n.Sound tree) (ho : o ≤ n.range.start) : tree.next o ≤ n.range.start := by
  obtain ⟨_, _, s, _, -, ⟨hs, hsig, hstart⟩, -⟩ := h.ends
  rw [← hstart] at ho ⊢
  exact h.ordered.next_le (mem_of_getElem? hs) hsig ho

/-! ## Errors -/

/-- The error can be shown on the text. -/
def PatchError.PointsInto (text : List Char) (e : PatchError) : Prop := e.range.Cuts text

/-- What is refused is to take out the comments behind an indented body, up to the end of one of them. -/
def EditError.MovesComments (tree : Tree) (e : EditError) : Prop :=
  ∃ existing, ∃ body ∈ tree.root.descendants, ∃ c ∈ tree.comments,
    e = .overlapping existing ⟨body.range.stop, c.range.stop⟩ ∧ body.kind = .block ∧
      (∃ first last, body.tokens = some (first + 1, last) ∧ tree.kindAt first = .indent) ∧
      body.range.stop ≤ c.range.start ∧ c.range.stop ≤ tree.next body.range.stop

/-- The error can be shown on the text, and if an edit was refused, it was to take out comments. -/
structure PatchError.Fair (tree : Tree) (e : PatchError) : Prop where
  pointsInto : e.PointsInto tree.text
  edit : ∀ cause, e = .edit cause → cause.MovesComments tree

/-! ## Progress -/

/-- The span lies in a comment. -/
def Tree.InComment (tree : Tree) (s : Span) : Prop := ∃ c ∈ tree.comments, c.range.Encloses s

/-- What JavaScript does not have in the span is in one of the others. -/
def Tree.Covers (tree : Tree) (xs : List Span) (x : Span) : Prop :=
  ∀ r ∈ tree.sourceOnly, x.Encloses r → ∃ s ∈ xs, s.Encloses r

/-- A context for the tree whose edits so far are at boundaries of the text. -/
structure Context.Fine (tree : Tree) (g : Context) : Prop where
  editor : g.editor.Fine tree.text
  settled : ∀ i ∈ g.editor.inserts, i.Settled tree
  tree : g.tree = tree

/-- What a construct works on: a node of a tree, in a text with some replacements made before. -/
structure Ground where
  tree : Tree
  node : Node
  before : List Replacement

namespace Ground

variable {w : Ground} {done done' : List Span} {g : Context} {E : PatchError → Prop}

/-- A piece of the node from place to place. -/
structure Holds (w : Ground) (x : Span) : Prop where
  start : w.tree.Place x.start
  stop : w.tree.Place x.stop
  within : w.node.range.start ≤ x.start ∧ x.start ≤ x.stop ∧ x.stop ≤ w.node.range.stop

theorem Holds.empty_start (h : w.Holds x) : w.Holds (.empty x.start) :=
  ⟨h.start, h.start, h.within.1, Nat.le_refl _, Nat.le_trans h.within.2.1 h.within.2.2⟩

theorem Holds.empty_stop (h : w.Holds x) : w.Holds (.empty x.stop) :=
  ⟨h.stop, h.stop, Nat.le_trans h.within.1 h.within.2.1, Nat.le_refl _, h.within.2.2⟩

/-- The ends of the node are free. -/
theorem Holds.spared (h : w.Holds x) (ho : o = w.node.range.start ∨ o = w.node.range.stop) :
    (Span.empty o).Spares x := by
  have hwithin := h.within
  simp only [Span.Spares, Span.Apart, Span.empty]
  omega

/-- What lies between two ends of pieces is a piece. -/
theorem Holds.join {o o' : Nat} (h : w.Holds (.empty o)) (h' : w.Holds (.empty o')) (hle : o ≤ o') : w.Holds ⟨o, o'⟩ :=
  ⟨h.start, h'.stop, h.within.1, hle, h'.within.2.2⟩

/-- What has been replaced since the work began is near the spans that are done, and what JavaScript does not have in
these is replaced.  Before that, at most comments were respelled in the text of the node. -/
structure Progress (w : Ground) (done : List Span) (g : Context) : Prop where
  sound : w.node.Sound w.tree
  parted : w.tree.Parted
  fine : g.Fine w.tree
  clear : ∀ r ∈ w.before, r.range.Apart w.node.range ∨ w.tree.InComment r.range
  kept : ∀ r ∈ w.before, g.editor.Replaces r.range
  active : ∀ r ∈ g.editor.active, r ∈ w.before ∨ ∃ s ∈ done, w.tree.Near s r.range
  holds : ∀ s ∈ done, w.Holds s
  cleared : ∀ s ∈ done, ∀ r ∈ w.tree.sourceOnly, s.Encloses r → g.editor.Replaces r

namespace Progress

variable (h : w.Progress done g)
include h

theorem boundary (ho : w.tree.Place o) : isBoundary w.tree.text o = true := ho.boundary h.sound.ordered

theorem of_editor {g' : Context} (htree : g'.tree = g.tree) (heditor : g'.editor = g.editor) : w.Progress done g' := by
  obtain ⟨sound, parted, fine, clear, kept, active, holds, cleared⟩ := h
  rw [← heditor] at kept active cleared
  exact ⟨sound, parted, ⟨heditor ▸ fine.editor, heditor ▸ fine.settled, htree.trans fine.tree⟩, clear, kept, active,
    holds, cleared⟩

/-- Other spans may be taken for done that hold those that are done, and have no more to clear away. -/
theorem mono (hdone : ∀ s ∈ done, ∃ t ∈ done', t.Encloses s) (hholds : ∀ t ∈ done', w.Holds t)
    (hcovers : ∀ t ∈ done', w.tree.Covers done t) : w.Progress done' g :=
  { h with
    active := fun r hr => (h.active r hr).imp_right fun ⟨s, hs, hnear⟩ => by
      obtain ⟨t, ht, hle⟩ := hdone s hs
      have hs := h.holds s hs
      exact ⟨t, ht, hnear.mono h.sound.ordered hs.stop (hholds t ht).stop hs.within.2.1 hle⟩
    holds := hholds
    cleared := fun t ht r hr hle => by
      obtain ⟨s, hs, hle⟩ := hcovers t ht r hr hle
      exact h.cleared s hs r hr hle }

omit h in
theorem settle {xs : List Span} (h : w.Progress (xs ++ done) g) (hx : w.Holds x) (hxs : ∀ s ∈ xs, x.Encloses s)
    (hcovers : w.tree.Covers xs x) : w.Progress (x :: done) g := by
  refine h.mono (fun s hs => ?_) (forall_mem_cons.2 ⟨hx, fun s hs => h.holds s (mem_append_right _ hs)⟩)
    (forall_mem_cons.2 ⟨fun r hr hle => ?_, fun s hs r _ hle => ⟨s, mem_append_right _ hs, hle⟩⟩)
  · rcases mem_append.1 hs with hs | hs
    · exact ⟨x, mem_cons_self, hxs s hs⟩
    · exact ⟨s, mem_cons_of_mem _ hs, Nat.le_refl _, Nat.le_refl _⟩
  · obtain ⟨s, hs, hle⟩ := hcovers r hr hle
    exact ⟨s, mem_append_left _ hs, hle⟩

/-- An edit that spares what is done spares all replacements. -/
theorem spares (hx : w.Holds x) (hdone : ∀ s ∈ done, x.Spares s) : ∀ r ∈ g.editor.active, x.Spares r.range := by
  intro r hr
  have hwithin := hx.within
  unfold Span.Spares Span.Apart
  rcases h.active r hr with hr | ⟨s, hs, hnear⟩
  · rcases h.clear r hr with hapart | ⟨c, hc, hle, hge⟩
    · unfold Span.Apart at hapart
      omega
    · have hstart := hx.start.outside h.sound.ordered h.parted hc
      have hstop := hx.stop.outside h.sound.ordered h.parted hc
      omega
  · have hspares := hdone s hs
    have hplace := (h.holds s hs).stop
    have hstart : x.start ≤ s.stop ∨ w.tree.next s.stop ≤ x.start :=
      (Nat.lt_or_ge s.stop x.start).symm.imp id (hplace.next_le h.sound.ordered hx.start)
    have hstop : x.stop ≤ s.stop ∨ w.tree.next s.stop ≤ x.stop :=
      (Nat.lt_or_ge s.stop x.stop).symm.imp id (hplace.next_le h.sound.ordered hx.stop)
    unfold Span.Spares Span.Apart at hspares
    unfold Tree.Near at hnear
    omega

theorem free (hx : w.Holds (.empty o)) (hdone : ∀ s ∈ done, Span.Spares (.empty o) s) :
    ∀ r ∈ g.editor.active, o ≤ r.range.start ∨ r.range.stop ≤ o := by
  intro r hr
  have hspares := h.spares hx hdone r hr
  simp only [Span.Spares, Span.Apart, Span.empty] at hspares
  omega

/-- An edit that replaces no more than what is near the spans it adds, and clears these. -/
theorem edit (new : List Span) {f : Editor → Except EditError Editor} {e : Editor}
    (he : f g.editor = .ok e) (hfine : e.Fine w.tree.text) (hsettled : ∀ i ∈ e.inserts, i.Settled w.tree)
    (hactive : ∀ r ∈ e.active, r ∈ g.editor.active ∨ ∃ s ∈ new ++ done, w.tree.Near s r.range)
    (hkept : ∀ r, g.editor.Replaces r → e.Replaces r)
    (hnew : ∀ s ∈ new, w.Holds s ∧ ∀ r ∈ w.tree.sourceOnly, s.Encloses r → e.Replaces r) :
    Patching.Safe E (Patching.edit f) g fun _ => w.Progress (new ++ done) := by
  refine Patching.Safe.get_bind ?_
  rw [he]
  refine ⟨h.sound, h.parted, ⟨hfine, hsettled, h.fine.tree⟩, h.clear, fun r hr => hkept _ (h.kept r hr), fun r hr => ?_,
    forall_mem_append.2 ⟨fun s hs => (hnew s hs).1, h.holds⟩,
    forall_mem_append.2 ⟨fun s hs => (hnew s hs).2, fun s hs r hr hle => hkept r (h.cleared s hs r hr hle)⟩⟩
  rcases hactive r hr with hr | hr
  · exact (h.active r hr).imp_right fun ⟨s, hs, hnear⟩ => ⟨s, mem_append_right _ hs, hnear⟩
  · exact Or.inr hr

theorem place {f : Editor → Except EditError Editor} {e : Editor} (he : f g.editor = .ok e) (hfine : e.Fine w.tree.text)
    (hsettled : ∀ i ∈ e.inserts, i.Settled w.tree) (hactive : e.active = g.editor.active) :
    Patching.Safe E (Patching.edit f) g fun _ => w.Progress done :=
  h.edit [] he hfine hsettled (fun _ hr => Or.inl (hactive ▸ hr)) (fun _ hr => hr.of_active hactive) (forall_mem_nil _)

end Progress

end Ground

/-! ## Steps -/

theorem Editor.settled_of_place {e e' : Editor} {y : String} {order : Int} (h : ∀ i ∈ e.inserts, i.Settled tree)
    (hy : Insert.Settled tree ⟨o, y, order, false⟩) (he : e.place o y order = .ok e') :
    ∀ i ∈ e'.inserts, i.Settled tree := by
  obtain ⟨-, rfl⟩ := place_eq_ok.1 he
  exact forall_mem_append.2 ⟨h, forall_mem_singleton.2 hy⟩

/-- What a replacement takes stays where it was. -/
theorem Editor.settled_of_overwrite {e e' : Editor} {y : String} (h : ∀ i ∈ e.inserts, i.Settled tree)
    (hx : x.start < x.stop) (he : e.overwrite x y = .ok e') : ∀ i ∈ e'.inserts, i.Settled tree := by
  obtain ⟨-, rfl⟩ := (overwrite_eq_ok hx).1 he
  intro i hi
  obtain ⟨j, hj, rfl⟩ := mem_map.1 hi
  unfold subsume
  split
  · exact h j hj
  · exact h j hj

theorem Editor.Fine.of_overwrite {e e' : Editor} {y : String} (h : e.Fine text) (hin : x.Inside text)
    (he : e.overwrite x y = .ok e') : e'.Fine text ∧ ∀ r ∈ e'.active, r ∈ e.active ∨ r.range = x := by
  refine ⟨⟨?_, sound_of_overwrite h.sound hin.nonempty he,
    inBounds_of_overwrite h.bounds hin.nonempty (h.source ▸ hin.start) (h.source ▸ hin.stop) he⟩, fun r hr => ?_⟩
  · obtain ⟨-, rfl⟩ := (overwrite_eq_ok hin.nonempty).1 he
    exact h.source
  · rw [active_of_overwrite hin.nonempty he] at hr
    rcases mem_append.1 hr with hr | hr
    · exact Or.inl (mem_filter.1 hr).1
    · rw [mem_singleton.1 hr]
      exact Or.inr rfl

namespace Patching

variable {w : Ground} {done done' done'' : List Span}

/-- From a context with some spans done the step comes to one with others done, or fails in a fair way. -/
def Works (w : Ground) (done : List Span) (m : Patching α) (done' : List Span) : Prop :=
  ∀ g : Context, w.Progress done g → Safe (PatchError.Fair w.tree) m g fun _ => w.Progress done'

namespace Works

theorem pure (a : α) : Works w done (Pure.pure a : Patching α) done := fun _ h => h

theorem bind {m : Patching α} {f : α → Patching β} (h : Works w done m done') (hf : ∀ a, Works w done' (f a) done'') :
    Works w done (m >>= f) done'' := fun g hg => (h g hg).bind fun a g' => hf a g'

theorem settle (xs : List Span) {m : Patching α} (h : Works w done m (xs ++ done')) (hx : w.Holds x)
    (hxs : ∀ s ∈ xs, x.Encloses s) (hcovers : w.tree.Covers xs x) : Works w done m (x :: done') := fun g hg =>
  (h g hg).mono fun _ _ hg' => hg'.settle hx hxs hcovers

/-- An empty span is done from the beginning. -/
theorem empty {m : Patching α} (h : Works w done m done') (hx : w.Holds (.empty o)) :
    Works w done m (.empty o :: done') := by
  refine h.settle [] hx (forall_mem_nil _) fun r hr hle => absurd hr.2 ?_
  exact Nat.not_lt.2 (Nat.le_trans hle.2 hle.1)

theorem of_get {f : Context → Patching β} (hf : ∀ g : Context, g.tree = w.tree → Works w done (f g) done') :
    Works w done (get >>= f) done' := fun g hg => hf g hg.fine.tree g hg

theorem of_holds {m : Patching α} (h : (∀ s ∈ done, w.Holds s) → Works w done m done') : Works w done m done' :=
  fun g hg => h hg.holds g hg

theorem of_modify {f : Context → Context} (hf : ∀ g : Context, (f g).tree = g.tree ∧ (f g).editor = g.editor) :
    Works w done (modify f) done := fun g hg => hg.of_editor (hf g).1 (hf g).2

theorem of_modifyGet {f : Context → α × Context}
    (hf : ∀ g : Context, (f g).2.tree = g.tree ∧ (f g).2.editor = g.editor) :
    Works w done (modifyGet f) done := fun g hg => hg.of_editor (hf g).1 (hf g).2

theorem claim {scope : Nat} {hint : String} (hx : x.Cuts w.tree.text) :
    Works w done (Patching.claim scope hint x) done := fun _ hg =>
  Safe.claim ⟨hx, fun _ h => by cases h⟩ fun _ _ => hg.of_editor rfl rfl

section Place

variable (ho : w.Holds (.empty o)) (hdone : ∀ s ∈ done, Span.Spares (.empty o) s) (y : String)
include ho hdone

theorem insert (hy : y = "function" ∨ y = "let " ∨ w.tree.Closes o) : Works w done (Patching.insert o y) done :=
  fun g hg => by
    obtain ⟨e, he, hfine, -, hactive⟩ := hg.fine.editor.insert (hg.boundary ho.start) (hg.free ho hdone) y
    exact hg.place he hfine (Editor.settled_of_place hg.fine.settled (Or.inr hy) he) hactive

theorem prepend : Works w done (Patching.prepend o y) done := fun g hg => by
  obtain ⟨e, he, hfine, -, hactive⟩ := hg.fine.editor.prepend (hg.boundary ho.start) (hg.free ho hdone) y
  have hfront : -((g.editor.count + 1 : Nat) : Int) < 0 := by omega
  exact hg.place he hfine (Editor.settled_of_place hg.fine.settled (Or.inl hfront) he) hactive

end Place

theorem prependLineBefore {s : Site} (hs : w.Holds (.empty s.whole.start))
    (hdone : ∀ t ∈ done, Span.Spares (.empty s.whole.start) t) (line : String) :
    Works w done (Patching.prependLineBefore s line) done := of_get fun _ _ => prepend hs hdone _

section Range

variable (hx : w.Holds x)
include hx

/-- In place of an empty span text is put in, and so there has to be a token in front of it. -/
theorem overwrite (hcloses : x.start = x.stop → w.tree.Closes x.start) (hdone : ∀ s ∈ done, x.Spares s) (y : String) :
    Works w done (Patching.overwrite x y) (x :: done) := by
  by_cases hempty : x.isEmpty = true
  · have hinsert : Patching.overwrite x y = Patching.insert x.start y := by
      unfold Patching.overwrite Patching.insert Editor.overwrite
      simp only [hempty, if_true]
    obtain ⟨start, stop⟩ := x
    cases beq_iff_eq.1 hempty
    rw [hinsert]
    exact (insert hx hdone y (Or.inr (Or.inr (hcloses rfl)))).empty hx
  · intro g hg
    simp only [Span.isEmpty, beq_iff_eq] at hempty
    have hwithin := hx.within
    obtain ⟨e, he, hfine, -, hactive⟩ := hg.fine.editor.overwrite
      ⟨by omega, hg.boundary hx.start, hg.boundary hx.stop⟩ (fun r hr => by
        have hspares := hg.spares hx hdone r hr
        unfold Span.Spares Span.Apart at hspares
        omega) y
    refine hg.edit [x] he hfine (Editor.settled_of_overwrite hg.fine.settled (by omega) he)
      (fun r hr => (hactive r hr).imp_right fun heq => ?_) (fun _ hr => hr.of_overwrite he) ?_
    · exact ⟨x, mem_cons_self, heq ▸ Or.inl ⟨Nat.le_refl _, Nat.le_refl _⟩⟩
    · exact forall_mem_singleton.2 ⟨hx, fun r hr hle =>
        Editor.replaces_of_overwrite (Span.contains_iff.2 hle) hr.2 he⟩

theorem remove (hdone : ∀ s ∈ done, x.Spares s) : Works w done (Patching.remove x) (x :: done) := by
  by_cases hempty : x.isEmpty = true
  · obtain ⟨start, stop⟩ := x
    cases beq_iff_eq.1 hempty
    exact empty (fun g hg => hg.place (if_pos hempty) hg.fine.editor hg.fine.settled rfl) hx
  · have hremove : Patching.remove x = Patching.overwrite x "" := by
      unfold Patching.remove Patching.overwrite Editor.remove
      simp [hempty]
    rw [hremove]
    exact overwrite hx (fun heq => absurd (beq_iff_eq.2 heq) hempty) hdone _

theorem renderRangeInclusive (hstart : ∀ s ∈ done, Span.Spares (.empty x.start) s)
    (hstop : ∀ s ∈ done, Span.Spares (.empty x.stop) s) : Works w done (Patching.renderRangeInclusive x) done := by
  intro g hg
  have hclear : g.editor.Clear x := fun r hr => ⟨hg.free hx.empty_start hstart r hr, hg.free hx.empty_stop hstop r hr⟩
  have htext := (hg.fine.editor.renderRanges (hg.boundary hx.start) (hg.boundary hx.stop) hx.within.2.1 hclear).2
  refine Safe.get_bind ?_
  simp only [htext]
  exact hg

theorem surroundInParens {s : Site} (hs : s.whole = x) (hcloses : w.tree.Closes x.stop)
    (hstart : ∀ t ∈ done, Span.Spares (.empty x.start) t)
    (hstop : ∀ t ∈ done, Span.Spares (.empty x.stop) t) : Works w done (Patching.surroundInParens s) done := by
  subst hs
  unfold Patching.surroundInParens
  split
  · exact pure _
  · exact (prepend hx.empty_start hstart _).bind fun _ => insert hx.empty_stop hstop _ (Or.inr (Or.inr hcloses))

end Range

/-- Text is taken out of the gap behind a span that is done, unless that is refused. -/
theorem take (hx : x.Inside w.tree.text) (hs : s ∈ done) (hstart : s.stop = x.start)
    (hstop : x.stop ≤ w.tree.next s.stop)
    (hfair : ∀ existing, PatchError.Fair w.tree (.edit (.overlapping existing x))) :
    Works w done (Patching.remove x) done := by
  intro g hg
  cases he : g.editor.remove x with
  | ok e =>
    have hoverwrite := he
    rw [Editor.Fine.remove_eq hx] at hoverwrite
    obtain ⟨hfine, hactive⟩ := hg.fine.editor.of_overwrite hx hoverwrite
    refine hg.edit [] he hfine (Editor.settled_of_overwrite hg.fine.settled hx.nonempty hoverwrite)
      (fun r hr => (hactive r hr).imp_right fun heq => ?_) (fun _ hr => hr.of_remove he) (forall_mem_nil _)
    exact ⟨s, hs, heq ▸ Or.inr ⟨Nat.le_of_eq hstart, hstop⟩⟩
  | error cause =>
    have hne := hx.nonempty
    refine Safe.get_bind ?_
    simp only [he]
    rw [Editor.Fine.remove_eq hx, Editor.overwrite, if_neg (by simp [Span.isEmpty]; omega)] at he
    split at he
    · cases he
      exact hfair _
    · cases he

end Works

end Patching

/-! ## Scripts -/

/-- The spans that a node is edited in.  A block does nothing but patch its statements. -/
def Node.pieces (n : Node) : List Span := if n.kind = .block then n.children.map fun c => c.range else [n.range]

theorem Node.Sound.pieces (h : n.Sound tree) :
    (∀ s ∈ n.pieces, n.range.Encloses s) ∧ tree.Covers n.pieces n.range := by
  unfold Node.pieces
  split
  · rename_i hk
    refine ⟨fun s hs => ?_, fun r hr hle => ?_⟩
    · obtain ⟨c, hc, rfl⟩ := mem_map.1 hs
      exact (h.children_apart.2 c hc).2
    · obtain ⟨c, hc, hr⟩ := h.sourceOnly_subset_children (by rw [hk]; rfl) (h.mem_sourceOnly.2 ⟨hr, hle⟩)
      exact ⟨c.range, mem_map_of_mem hc, ((h.child hc).mem_sourceOnly.1 hr).2⟩
  · refine ⟨fun s hs => ?_, fun r _ hle => ⟨n.range, mem_singleton_self _, hle⟩⟩
    cases mem_singleton.1 hs
    exact ⟨Nat.le_refl _, Nat.le_refl _⟩

/-- A block is edited from its first statement on. -/
theorem Node.Sound.start_le_of_pieces (h : n.Sound tree) (hk : n.kind = .block) (hc : n.children.head? = some c)
    (hs : s ∈ n.pieces) : c.range.start ≤ s.start := by
  obtain ⟨rest, hchildren⟩ := head?_eq_some_iff.1 hc
  obtain ⟨hapart, hin⟩ := h.children_apart
  have hlt := (hin c (mem_of_mem_head? hc)).1.nonempty
  rw [Node.pieces, if_pos hk, hchildren] at hs
  rw [hchildren] at hapart
  obtain ⟨d, hd, rfl⟩ := mem_map.1 hs
  rcases mem_cons.1 hd with rfl | hd
  · exact Nat.le_refl _
  · have := (pairwise_cons.1 hapart).1 d hd
    omega

/-- A part asks for a node in which at most comments were respelled. -/
def Tree.Asks (tree : Tree) (n : Node) (g : Context) : Prop := Ground.Progress ⟨tree, n, g.editor.active⟩ [] g

/-- A part leaves a context in which it was edited, and nothing else. -/
def Tree.Leaves (tree : Tree) (n : Node) (g g' : Context) : Prop :=
  Ground.Progress ⟨tree, n, g.editor.active⟩ n.pieces g'

theorem Tree.Leaves.replaces {g g' : Context} (h : tree.Leaves n g g') :
    ∀ r ∈ n.sourceOnly tree, g'.editor.Replaces r := by
  intro r hr
  obtain ⟨hr, hle⟩ := h.sound.mem_sourceOnly.1 hr
  obtain ⟨s, hs, hle⟩ := h.sound.pieces.2 r hr hle
  exact h.cleared s hs r hr hle

namespace Script

variable {w : Ground} {nodes : List Node} {done done' done'' : List Span} {q : Script Context κ PUnit}

/-- From a context with some spans done the script comes to one with others done, or fails in a fair way. -/
structure Works (w : Ground) (nodes : List Node) (done : List Span) (s : Script Context κ α) (done' : List Span) :
    Prop where
  careful : ∀ g, w.Progress done g →
    s.Careful w.tree.Asks w.tree.Leaves (PatchError.Fair w.tree) nodes g fun _ => w.Progress done'

namespace Works

theorem pure (a : α) : Works w nodes done (Pure.pure a : Script Context κ α) done := ⟨fun _ h => h⟩

theorem fail {e : PatchError} (h : e.Fair w.tree) : Works w nodes done (Script.fail e : Script Context κ α) done' :=
  ⟨fun _ _ => h⟩

theorem stop {cause : Obstacle} (hx : x.Cuts w.tree.text) :
    Works w nodes done (Script.stop cause x : Script Context κ α) done' := fail ⟨hx, fun _ h => by cases h⟩

theorem bind {s : Script Context κ α} {f : α → Script Context κ β} (hs : Works w nodes done s done')
    (hf : ∀ a, Works w nodes done' (f a) done'') : Works w nodes done (s >>= f) done'' :=
  ⟨fun g hg => (hs.careful g hg).bind fun a g' => (hf a).careful g'⟩

theorem step {m : Patching α} (h : Patching.Works w done m done') :
    Works w nodes done (liftM m : Script Context κ α) done' := ⟨fun g hg => Careful.step (h g hg)⟩

theorem of_get {f : Context → Script Context κ α}
    (hf : ∀ g : Context, g.tree = w.tree → Works w nodes done (f g) done') :
    Works w nodes done (liftM (get : Patching Context) >>= f) done' :=
  ⟨fun g hg => (hf g hg.fine.tree).careful g hg⟩

theorem settle (xs : List Span) {s : Script Context κ α} (h : Works w nodes done s (xs ++ done')) (hx : w.Holds x)
    (hxs : ∀ s ∈ xs, x.Encloses s) (hcovers : w.tree.Covers xs x) : Works w nodes done s (x :: done') :=
  ⟨fun g hg => (h.careful g hg).mono fun _ _ hg' => hg'.settle hx hxs hcovers⟩

/-- In the end all that is done lies in the node, and all is done that JavaScript does not have. -/
theorem finish {s : Script Context κ α} (h : Works w nodes done s done')
    (hall : ∀ r ∈ w.node.unwrapParens.sourceOnly w.tree, ∃ s ∈ done', s.Encloses r) :
    Works w nodes done s [w.node.range] := by
  refine ⟨fun g hg => (h.careful g hg).mono fun _ _ hg' => hg'.mono (fun s hs => ?_) (forall_mem_singleton.2 ?_)
    (forall_mem_singleton.2 fun r hr hle => ?_)⟩
  · obtain ⟨hstart, -, hstop⟩ := (hg'.holds s hs).within
    exact ⟨w.node.range, mem_cons_self, hstart, hstop⟩
  · obtain ⟨hstart, hstop⟩ := hg.sound.places
    exact ⟨hstart, hstop, Nat.le_refl _, Nat.le_of_lt hg.sound.inside.nonempty, Nat.le_refl _⟩
  · exact hall r (hg.sound.sourceOnly_unwrapParens (hg.sound.mem_sourceOnly.2 ⟨hr, hle⟩))

theorem patch {i : Nat} (hi : nodes[i]? = some c) (hsound : c.Sound w.tree) (hc : w.Holds c.range)
    (hapart : ∀ s ∈ done, s.Apart c.range) :
    Works w nodes done (Script.patch i : Script Context κ Unit) (c.pieces ++ done) := by
  have hwithin := hc.within
  refine ⟨fun g hg => Careful.patch hi ⟨hsound, hg.parted, hg.fine, fun r hr => ?_, fun r hr => ?_,
    fun r hr => Or.inl hr, forall_mem_nil _, forall_mem_nil _⟩ fun g' hg' => ?_⟩
  · rcases hg.active r hr with hr | ⟨s, hs, hnear⟩
    · refine (hg.clear r hr).imp_left fun hapart => ?_
      simp only [Span.Apart] at hapart ⊢
      omega
    · have hs' := (hg.holds s hs).within
      have hapart := hapart s hs
      have hnext : s.stop ≤ c.range.start → w.tree.next s.stop ≤ c.range.start := hsound.next_le
      simp only [Tree.Near, Span.Apart] at hapart hnear ⊢
      omega
  · exact ⟨r, hr, Span.contains_iff.2 ⟨Nat.le_refl _, Nat.le_refl _⟩⟩
  · -- What was replaced before is still so, in what replaced it.
    have hkept (r : Span) (hr : g.editor.Replaces r) : g'.editor.Replaces r := by
      obtain ⟨a, ha, hr⟩ := hr
      obtain ⟨b, hb, ha⟩ := hg'.kept a ha
      rw [Span.contains_iff] at ha hr
      exact ⟨b, hb, Span.contains_iff.2 ⟨Nat.le_trans ha.1 hr.1, Nat.le_trans hr.2 ha.2⟩⟩
    refine ⟨hg.sound, hg.parted, hg'.fine, hg.clear, fun r hr => hkept _ (hg.kept r hr), fun r hr => ?_,
      forall_mem_append.2 ⟨fun s hs => ?_, hg.holds⟩,
      forall_mem_append.2 ⟨hg'.cleared, fun s hs r hr hle => hkept r (hg.cleared s hs r hr hle)⟩⟩
    · rcases hg'.active r hr with hr | ⟨s, hs, hnear⟩
      · refine (hg.active r hr).imp_right ?_
        rintro ⟨s, hs, hnear⟩
        exact ⟨s, mem_append_right _ hs, hnear⟩
      · exact Or.inr ⟨s, mem_append_left _ hs, hnear⟩
    · obtain ⟨hstart, hstop, hin⟩ := hg'.holds s hs
      exact ⟨hstart, hstop, by simp only at hin; omega⟩

theorem patchWhole {i : Nat} (hi : nodes[i]? = some c) (hsound : c.Sound w.tree) (hc : w.Holds c.range)
    (hapart : ∀ s ∈ done, s.Apart c.range) :
    Works w nodes done (Script.patch i : Script Context κ Unit) (c.range :: done) :=
  (patch hi hsound hc hapart).settle _ hc hsound.pieces.1 hsound.pieces.2

theorem patchAndRender {q : Part} (hi : nodes[q.place]? = some c) (hq : q.site.whole = c.range)
    (hsound : c.Sound w.tree) (hc : w.Holds c.range) (hapart : ∀ s ∈ done, s.Apart c.range) :
    Works w nodes done (Script.patchAndRender q : Script Context κ String) (c.range :: done) := by
  have hends {o : Nat} := Span.spares_ends (o := o) hc.within.2.1 hapart
  unfold Script.patchAndRender
  rw [hq]
  exact (patchWhole hi hsound hc hapart).bind fun _ =>
    step (.renderRangeInclusive hc (hends (Or.inl rfl)) (hends (Or.inr rfl)))

theorem when {b : Prop} [Decidable b] {f : PUnit → Script Context κ β} (hs : b → Works w nodes done q done)
    (hf : Works w nodes done (f ⟨⟩) done') : Works w nodes done (if b then q >>= f else f ⟨⟩) done' := by
  split
  · rename_i h
    exact (hs h).bind fun _ => hf
  · exact hf

theorem last {b : Prop} [Decidable b] (hs : b → Works w nodes done q done) :
    Works w nodes done (if b then q else Pure.pure ⟨⟩) done := by
  split
  · rename_i h
    exact hs h
  · exact pure _

/-- A loop none of whose turns does more than what is done. -/
theorem forM {xs : List α} {f : α → Script Context κ PUnit} (hf : ∀ x ∈ xs, Works w nodes done (f x) done) :
    Works w nodes done (xs.forM f) done := by
  induction xs with
  | nil => exact pure _
  | cons x xs ih =>
    obtain ⟨hx, hxs⟩ := forall_mem_cons.1 hf
    exact hx.bind fun _ => ih hxs

/-- A loop that does one span after the other, where each can be done after those before it. -/
theorem foldlM {δ : Type} (span : δ → Span) {R : Span → Span → Prop} {xs : List α} {cs : List δ}
    {f : β → α → Script Context κ β} {b : β}
    (hf : ∀ (i : Nat) (x : α) (c : δ), xs[i]? = some x → cs[i]? = some c → ∀ b done,
      (∀ s ∈ done, R s (span c)) → Works w nodes done (f b x) (span c :: done))
    (hlen : xs.length = cs.length) (hcs : cs.Pairwise fun c d => R (span c) (span d))
    (hdone : ∀ c ∈ cs, ∀ s ∈ done, R s (span c)) :
    Works w nodes done (xs.foldlM f b) ((cs.map span).reverse ++ done) := by
  induction cs generalizing xs b done with
  | nil =>
    cases length_eq_zero_iff.1 hlen
    exact pure _
  | cons c cs ih =>
    obtain ⟨x, xs, rfl⟩ := exists_cons_of_length_eq_add_one hlen
    obtain ⟨hc, hcs⟩ := pairwise_cons.1 hcs
    obtain ⟨hdone, hrest⟩ := forall_mem_cons.1 hdone
    rw [map_cons, reverse_cons, append_assoc]
    refine (hf 0 x c rfl rfl b done hdone).bind fun b => ?_
    exact ih (fun i y d hy hd => hf (i + 1) y d hy hd) (Nat.succ.inj hlen) hcs fun d hd =>
      forall_mem_cons.2 ⟨hc d hd, hrest d hd⟩

theorem forM_spans {δ : Type} (span : δ → Span) {R : Span → Span → Prop} {xs : List α} {cs : List δ}
    {f : α → Script Context κ PUnit}
    (hf : ∀ (i : Nat) (x : α) (c : δ), xs[i]? = some x → cs[i]? = some c → ∀ done,
      (∀ s ∈ done, R s (span c)) → Works w nodes done (f x) (span c :: done))
    (hlen : xs.length = cs.length) (hcs : cs.Pairwise fun c d => R (span c) (span d))
    (hdone : ∀ c ∈ cs, ∀ s ∈ done, R s (span c)) :
    Works w nodes done (xs.forM f) ((cs.map span).reverse ++ done) := by
  have heq : xs.forM f = xs.foldlM (fun _ => f) ⟨⟩ := by
    clear hf hlen
    induction xs with
    | nil => rfl
    | cons x xs ih => exact congrArg _ (funext fun _ => ih)
  rw [heq]
  exact foldlM span (fun i x c hx hc _ => hf i x c hx hc) hlen hcs hdone

end Works

end Script

end Respell
