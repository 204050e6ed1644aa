import Respell.Proofs.Normalize.Assembled
import Respell.Proofs.Normalize.Following
import Respell.Proofs.Normalize.Rewriting

/-!
The steps of normalizing one node.

The parts of a node are patched one after the other, each where nothing was edited before, so that those
already patched are rewritten and the others untouched (`Done`).  On top of that stand the steps that a loop
or a conditional takes: its value is replaced by a name, parts of the header get parentheses, and the header
moves in front of the body.
-/

namespace Respell.Normalize

open List Text

/-- A context for the tree in which nothing was edited in the range. -/
structure Ready (tree : Tree) (g : Context) (range : Span) : Prop where
  tree_eq : g.tree = tree
  stage_eq : g.stage = .normalize
  fine : g.editor.Fine tree.text
  fresh : g.editor.Fresh range

theorem Ready.mono {tree : Tree} {g : Context} {range s : Span} (h : Ready tree g range)
    (hstart : range.start ≤ s.start) (hstop : s.stop ≤ range.stop) : Ready tree g s :=
  ⟨h.tree_eq, h.stage_eq, h.fine, h.fresh.mono hstart hstop⟩

/-- The work on the tree goes on. -/
structure Continues (g g' : Context) : Prop where
  tree_eq : g'.tree = g.tree
  stage_eq : g'.stage = g.stage

theorem Continues.trans {g₁ g₂ g₃ : Context} (h : Continues g₁ g₂) (h' : Continues g₂ g₃) : Continues g₁ g₃ :=
  ⟨h'.tree_eq.trans h.tree_eq, h'.stage_eq.trans h.stage_eq⟩

theorem Ready.continue {tree : Tree} {g g' : Context} {range s : Span} (h : Ready tree g range)
    (hcontext : Continues g g') (hf : g'.editor.Fine tree.text) (hfresh : g'.editor.Fresh s) :
    Ready tree g' s :=
  ⟨hcontext.tree_eq.trans h.tree_eq, hcontext.stage_eq.trans h.stage_eq, hf, hfresh⟩

/-- The node was patched and `x` is its text. -/
structure Patched (tree : Tree) (n : Node) (x : List Char) (g g' : Context) : Prop where
  context : Continues g g'
  rewrites : Rewrites tree.text g.editor g'.editor [(n.range, x)]
  quiet : n.Steady tree →
    g'.editor.reading.ahead n.range.start = g.editor.reading.ahead n.range.start

/-- The parts of the patcher, called in a context that is ready for them, follow the translations of the
nodes. -/
def Answers (tree : Tree) (callee : Call → Patcher Construct → Context → Outcome Context Construct Unit)
    (of : Node → Translating (List Char)) (nodes : List Node) (p : Patcher Construct) : Prop :=
  ∀ (i : Nat) (c : Node), nodes[i]? = some c → ∃ q, p.parts[i]? = some q ∧ ∀ g, Ready tree g c.range →
    Agrees tree (callee .patch q g) (of c g.scopes) fun x _ _ g' => Patched tree c x g g'

/-- Of the parts of a patcher, the first were patched, each with a piece. -/
structure Done (tree : Tree) (p₀ : Patcher Construct) (g₀ : Context) (done : List Node) (pieces : List Piece)
    (p : Patcher Construct) (g : Context) : Prop where
  ranges : pieces.map Prod.fst = done.map fun c => c.range
  rest : ∀ i, done.length ≤ i → p.parts[i]? = p₀.parts[i]?
  context : Continues g₀ g
  rewrites : Rewrites tree.text g₀.editor g.editor pieces

section Parts

variable {tree : Tree} {callee : Callee Context Construct} {of : Node → Translating (List Char)}
  {nodes done : List Node} {p₀ p : Patcher Construct} {g₀ g : Context} {pieces : List Piece} {c : Node}

theorem Done.nil (h : g₀.editor.Fine tree.text) : Done tree p₀ g₀ [] [] p₀ g₀ :=
  ⟨rfl, fun _ _ => rfl, ⟨rfl, rfl⟩, .refl h⟩

theorem Done.mem_range (h : Done tree p₀ g₀ done pieces p g) {q : Piece} (hq : q ∈ pieces) :
    ∃ d ∈ done, d.range = q.1 := by
  have : q.1 ∈ done.map fun c => c.range := h.ranges ▸ mem_map_of_mem hq
  obtain ⟨d, hd, heq⟩ := mem_map.1 this
  exact ⟨d, hd, heq⟩

/-- A part that lies apart from those patched before it. -/
structure Next (tree : Tree) (g₀ : Context) (done : List Node) (c : Node) : Prop where
  ready : Ready tree g₀ c.range
  inside : c.range.Inside tree.text
  before : ∀ d ∈ done, d.range.Inside tree.text
  apart : ∀ d ∈ done, d.range.stop ≤ c.range.start ∨ c.range.stop < d.range.start

/-- A part of a range that was not edited, in a row of parts that lie apart. -/
theorem Next.of_pairwise {all rest : List Node} {range : Span} (hall : all = done ++ c :: rest)
    (hready : Ready tree g₀ range)
    (hin : ∀ d ∈ all, d.range.Inside tree.text ∧ range.start ≤ d.range.start ∧ d.range.stop ≤ range.stop)
    (hapart : all.Pairwise fun d d' => d.range.stop ≤ d'.range.start ∨ d'.range.stop < d.range.start) :
    Next tree g₀ done c := by
  subst hall
  obtain ⟨h1, h2, h3⟩ := hin c (mem_append_right _ mem_cons_self)
  exact ⟨hready.mono h2 h3, h1, fun d hd => (hin d (mem_append_left _ hd)).1,
    fun d hd => (pairwise_append.1 hapart).2.2 d hd c mem_cons_self⟩

theorem Next.apart_pieces (hn : Next tree g₀ done c) (h : Done tree p₀ g₀ done pieces p g) :
    Apart pieces c.range := fun q hq => by
  obtain ⟨d, hd, heq⟩ := h.mem_range hq
  exact heq ▸ hn.apart d hd

theorem Next.ready_now (hn : Next tree g₀ done c) (h : Done tree p₀ g₀ done pieces p g) : Ready tree g c.range :=
  hn.ready.continue h.context h.rewrites.fine (h.rewrites.fresh hn.ready.fresh (hn.apart_pieces h))

/-- What is rewritten at the next part comes behind the rest. -/
theorem Done.append (h : Done tree p₀ g₀ done pieces p g) (hn : Next tree g₀ done c) {x : List Char}
    {p' : Patcher Construct} {g' : Context} (hp : ∀ i, i ≠ done.length → p'.parts[i]? = p.parts[i]?)
    (hcontext : Continues g g')
    (hr : Rewrites tree.text g.editor g'.editor [(c.range, x)]) :
    Done tree p₀ g₀ (done ++ [c]) (pieces ++ [(c.range, x)]) p' g' where
  ranges := by simp [h.ranges]
  rest i hi := by
    rw [length_append, length_singleton] at hi
    rw [hp i (by omega), h.rest i (by omega)]
  context := h.context.trans hcontext
  rewrites := by
    refine h.rewrites.append hr (fun q hq => ?_) hn.inside (hn.apart_pieces h)
    obtain ⟨d, hd, heq⟩ := h.mem_range hq
    exact heq ▸ hn.before d hd

variable (ha : Answers tree callee of nodes p₀)
include ha

theorem follows_call {i : Nat} (hi : nodes[i]? = some c) (hp : p.parts[i]? = p₀.parts[i]?)
    (hready : Ready tree g c.range) :
    Follows tree callee (Script.patch i) p g (of c) fun x _ p' g' =>
      Patched tree c x g g' ∧ ∀ j, j ≠ i → p'.parts[j]? = p.parts[j]? := by
  obtain ⟨q, hq, hcall⟩ := ha i c hi
  refine (Follows.call (hp.trans hq) (hcall g hready)).mono ?_
  rintro x _ p' g' ⟨⟨child, rfl⟩, hpatched⟩
  refine ⟨hpatched, fun j hj => ?_⟩
  rw [Patcher.parts_withParts, getElem?_set_ne (Ne.symm hj)]

variable (h : Done tree p₀ g₀ done pieces p g)
include h

theorem Done.follows_patch (hi : nodes[done.length]? = some c) (hn : Next tree g₀ done c) :
    Follows tree callee (Script.patch done.length) p g (of c) fun x _ p' g' =>
      Patched tree c x g g' ∧ Done tree p₀ g₀ (done ++ [c]) (pieces ++ [(c.range, x)]) p' g' := by
  refine (follows_call ha hi (h.rest _ (Nat.le_refl _)) (hn.ready_now h)).mono ?_
  rintro x _ p' g' ⟨hpatched, hp⟩
  exact ⟨hpatched, h.append hn hp hpatched.context hpatched.rewrites⟩

/-- Patches all that is left.  What is in front of other places stays, and in front of steady parts. -/
theorem Done.follows_all {rest : List Node} (hnodes : nodes = done ++ rest)
    (hn : ∀ {done c rest}, nodes = done ++ c :: rest → Next tree g₀ done c) :
    Follows tree callee ((List.range' done.length rest.length).forM Script.patch) p g (rest.mapM (inPlace of))
      fun new _ p' g' => Done tree p₀ g₀ nodes (pieces ++ new) p' g' ∧
        ∀ o, (∀ d ∈ rest, (o < d.range.start ∨ d.range.stop ≤ o) ∨ d.Steady tree ∧ o = d.range.start) →
          g'.editor.reading.ahead o = g.editor.reading.ahead o := by
  induction rest generalizing done pieces p g with
  | nil =>
    rw [append_nil] at hnodes
    exact .pure ⟨by simpa [hnodes] using h, fun _ _ => rfl⟩
  | cons c rest ih =>
    have hnext : nodes = (done ++ [c]) ++ rest := by simp [hnodes]
    rw [length_cons, range'_succ, mapM_cons, inPlace, bind_assoc]
    refine (h.follows_patch ha (by simp [hnodes]) (hn hnodes)).bind ?_
    rintro x _ p₁ g₁ ⟨hpatched, h₁⟩
    rw [pure_bind]
    have hrest := ih h₁ hnext
    rw [length_append, length_singleton] at hrest
    refine hrest.map ?_
    rintro new _ p' g' ⟨h', hahead⟩
    refine ⟨by simpa using h', fun o ho => ?_⟩
    obtain ⟨hc, ho⟩ := forall_mem_cons.1 ho
    rw [hahead o ho]
    rcases hc with hc | ⟨hc, rfl⟩
    · exact (hpatched.rewrites.outside o fun q hq => by rwa [mem_singleton.1 hq]).1
    · exact hpatched.quiet hc

theorem Done.follows_option {o : Option Node} {f : Node → List Char → List Char}
    (hi : ∀ c ∈ o, nodes[done.length]? = some c)
    (hn : ∀ c ∈ o, Next tree g₀ done c) :
    Follows tree callee ((o.map (partAt tree done.length)).forM Script.patchPart) p g
      (o.toList.mapM fun c => do return (c.range, f c (← of c))) fun ps _ p' g' =>
        ∃ new, Done tree p₀ g₀ (done ++ o.toList) (pieces ++ new) p' g' ∧
          (o = none ∧ new = [] ∧ ps = [] ∨
            ∃ c x, o = some c ∧ new = [(c.range, x)] ∧ ps = [(c.range, f c x)]) := by
  cases o with
  | none => exact .pure ⟨[], by simpa using h, Or.inl ⟨rfl, rfl, rfl⟩⟩
  | some c =>
    have hone : ([c].mapM fun c => do return (c.range, f c (← of c)) : Translating (List Piece)) =
        of c >>= fun x => Pure.pure [(c.range, f c x)] := by simp
    show Follows tree callee (Script.patch done.length) p g ([c].mapM fun c => _) _
    rw [hone]
    refine (h.follows_patch ha (hi c rfl) (hn c rfl)).map ?_
    rintro x _ p' g' ⟨-, hdone⟩
    exact ⟨_, hdone, Or.inr ⟨c, x, rfl, rfl, rfl⟩⟩

theorem Done.follows_render (hi : nodes[done.length]? = some c) (hn : Next tree g₀ done c)
    (hahead : g₀.editor.reading.ahead c.range.start = []) :
    Follows tree callee (Script.patchAndRender (partAt tree done.length c)) p g (of c) fun x code p' g' =>
      code = String.ofList x ∧ Patched tree c x g g' ∧ ∀ j, j ≠ done.length → p'.parts[j]? = p.parts[j]? := by
  have hready := hn.ready_now h
  have hstart : g.editor.reading.ahead c.range.start = [] := by
    rw [(h.rewrites.outside _ fun q hq => ?_).1, hahead]
    have := hn.apart_pieces h q hq
    have := hn.inside.nonempty
    omega
  have hcall := follows_call ha hi (h.rest _ (Nat.le_refl _)) hready
  rw [← bind_pure (of c)]
  refine hcall.bind ?_
  rintro x _ p' g' ⟨hpatched, hp⟩
  have hrender := hpatched.rewrites.renderRangeInclusive hn.inside hready.fresh hstart
  exact .last (rendered_eq hrender) rfl ⟨rfl, hpatched, hp⟩

/-- Patches the value of a loop, if it has one.  A name takes its place if it is a pattern. -/
theorem Done.follows_value {o : Option Node} (scope : Nat)
    (hi : ∀ c ∈ o, nodes[done.length]? = some c) (hn : ∀ c ∈ o, Next tree g₀ done c)
    (hahead : ∀ c ∈ o, g₀.editor.reading.ahead c.range.start = []) (hsteady : ∀ c ∈ o, c.Steady tree)
    (hparen : ∀ c ∈ o, c.kind ≠ .parenExpr) :
    Follows tree callee
      (match o.map (partAt tree done.length) with
        | some value => patchLoopValue scope value
        | none => Pure.pure none) p g (valueText of scope o) fun r line p' g' =>
        Done tree p₀ g₀ (done ++ o.toList) (pieces ++ r.1) p' g' ∧ line = r.2.map String.ofList := by
  cases o with
  | none => exact .pure ⟨by simpa using h, rfl⟩
  | some c =>
    have hnode : (partAt tree done.length c).site.node = c := Node.unwrapParens_of_ne (hparen c rfl)
    have hn := hn c rfl
    simp only [Option.map_some, Option.toList_some, patchLoopValue, valueText, hnode, inPlace, bind_assoc, pure_bind]
    by_cases hb : bindsDirectly c.toForest = true
    · rw [if_pos hb, if_pos hb]
      refine (h.follows_patch ha (hi c rfl) hn).bind ?_
      rintro x _ p' g' ⟨-, hdone⟩
      exact .pure ⟨hdone, rfl⟩
    · rw [if_neg hb, if_neg hb]
      refine (Follows.claim hn.inside.cuts).bind ?_
      rintro name name' p₁ g₁ ⟨rfl, rfl, hg₁⟩
      have h₁ : Done tree p₀ g₀ done pieces p₁ g₁ := by
        rw [hg₁]
        exact ⟨h.ranges, h.rest, ⟨h.context.tree_eq, h.context.stage_eq⟩, h.rewrites⟩
      refine (h₁.follows_render ha (hi c rfl) hn (hahead c rfl)).bind ?_
      rintro x code p' g' ⟨hcode, hpatched, hp⟩
      -- The pattern is rendered, so its place is free for the name.
      obtain ⟨e, he, hr⟩ := hpatched.rewrites.overwrite hn.inside (hn.ready_now h₁).fresh
        (hpatched.quiet (hsteady c rfl)) name'
      have hcontent : (partAt tree done.length c).site.content = c.range := by rw [Site.content, hnode]
      rw [hcontent]
      refine .step (edit_eq he) rfl (.pure ⟨?_, ?_⟩)
      · exact h₁.append hn hp ⟨hpatched.context.tree_eq, hpatched.context.stage_eq⟩ hr
      · rw [hcode, Option.map_some, String.ofList_append, String.ofList_append, String.ofList_toList,
          String.ofList_toList]

end Parts

/-! ## Moving a header -/

section Header

variable {tree : Tree} {callee : Callee Context Construct} {p : Patcher Construct} {g : Context} {e : Editor} {c : Node}
  {x : List Char}

theorem slice_eq (htree : g.tree = tree) (range : Span) : (g.slice range).toList = source tree.text range := by
  rw [Context.slice, htree, Text.slice, String.toList_ofList]
  rfl

/-- Parentheses around a part of a header, where it needs them. -/
theorem follows_protect (htree : g.tree = tree) (hc : c.Sound tree) {range : Span} {k i : Nat}
    (hfresh : e.Fresh range) (hk : range.start ≤ k) {before after : List Piece}
    (hp : InOrder tree.text 1 k range.stop ((before ++ (c.range, x) :: after).map Prod.fst))
    (h : Encloses tree.text e g.editor (before ++ (c.range, x) :: after)) :
    Follows tree callee (protect (partAt tree i c)) p g (Pure.pure ()) fun _ _ p' g' =>
      p' = p ∧ Continues g g' ∧
        Encloses tree.text e g'.editor (before ++ (c.range, guarded tree c x) :: after) := by
  refine .step (m := get) (a := g) rfl rfl ?_
  rw [slice_eq htree]
  by_cases hparen : c.kind = .parenExpr
  · -- What stands in parentheses stays as it is.
    have hguard : guarded tree c x = x := if_neg (by simp [hparen])
    obtain ⟨d, -, hd, hunwrap, hstart, -⟩ := hc.paren hparen
    have hle := hd.unwrapParens.2.2.1
    have hin : (partAt tree i c).site.isParenthesized = true := by
      simp only [Site.isParenthesized, bne_iff_ne]
      intro heq
      have : c.range.start = c.unwrapParens.range.start := congrArg Span.start heq
      rw [hunwrap] at this
      omega
    have hstay : Patching.surroundInParens (partAt tree i c).site g = (.ok (), g) := by
      simp only [Patching.surroundInParens, hin, if_true]
      rfl
    rw [hguard]
    split
    · exact .last hstay rfl ⟨rfl, ⟨rfl, rfl⟩, h⟩
    · exact .pure ⟨rfl, ⟨rfl, rfl⟩, h⟩
  · have hunwrap := Node.unwrapParens_of_ne hparen
    have hcontent : (partAt tree i c).site.content = c.range := by
      show c.unwrapParens.range = c.range
      rw [hunwrap]
    rw [hcontent]
    by_cases hneeds : requiresParens (source tree.text c.range) = true
    · have hguard : guarded tree c x = ['('] ++ x ++ [')'] := if_pos ⟨hparen, hneeds⟩
      obtain ⟨e₁, e₂, he₁, he₂, h₂⟩ := h.guard hfresh hk hp rfl
      have hnot : (partAt tree i c).site.isParenthesized = false := by
        show (c.range != c.unwrapParens.range) = false
        rw [hunwrap]
        simp
      have hsurround : Patching.surroundInParens (partAt tree i c).site g = (.ok (), { g with editor := e₂ }) := by
        have h1 : Patching.prepend (partAt tree i c).site.whole.start "(" g =
            (.ok (), { g with editor := e₁ }) := edit_eq he₁
        have h2 : Patching.insert (partAt tree i c).site.whole.stop ")" { g with editor := e₁ } =
            (.ok (), { g with editor := e₂ }) := edit_eq he₂
        simp only [Patching.surroundInParens, hnot, Bool.false_eq_true, if_false]
        exact (bind_patching h1).trans h2
      rw [if_pos hneeds, hguard]
      exact .last hsurround rfl ⟨rfl, ⟨rfl, rfl⟩, h₂⟩
    · have hguard : guarded tree c x = x := if_neg fun h => hneeds h.2
      rw [if_neg hneeds, hguard]
      exact .pure ⟨rfl, ⟨rfl, rfl⟩, h⟩

theorem follows_protect_option (htree : g.tree = tree) {o : Option Node} (hc : ∀ c ∈ o, c.Sound tree)
    {range : Span} {k i : Nat} (hfresh : e.Fresh range) (hk : range.start ≤ k)
    {before new new' : List Piece} (hnew : o = none ∧ new = [] ∧ new' = [] ∨
      ∃ c x, o = some c ∧ new = [(c.range, x)] ∧ new' = [(c.range, guarded tree c x)])
    (hp : InOrder tree.text 1 k range.stop ((before ++ new).map Prod.fst))
    (h : Encloses tree.text e g.editor (before ++ new)) :
    Follows tree callee ((o.map (partAt tree i)).forM protect) p g (Pure.pure ()) fun _ _ p' g' =>
      p' = p ∧ Continues g g' ∧ Encloses tree.text e g'.editor (before ++ new') := by
  rcases hnew with ⟨rfl, rfl, rfl⟩ | ⟨c, x, rfl, rfl, rfl⟩
  · exact .pure ⟨rfl, ⟨rfl, rfl⟩, h⟩
  · exact follows_protect htree (hc c rfl) hfresh hk hp h

/-- The node is its body and what stands behind the body, with a keyword at `k`. -/
structure Trails (tree : Tree) (n body : Node) (k : Nat) : Prop where
  start : body.range.start = n.range.start
  front : (⟨n.range.start, body.range.stop⟩ : Span).Inside tree.text
  back : (⟨body.range.stop, n.range.stop⟩ : Span).Inside tree.text
  keyword : isBoundary tree.text k = true
  le_keyword : body.range.stop ≤ k
  keyword_lt : k < n.range.stop

theorem Trails.of_le {n body : Node} {k : Nat} (hn : n.Sound tree) (hbody : body.Sound tree)
    (hstart : body.range.start = n.range.start) (hk : isBoundary tree.text k = true)
    (hle : body.range.stop ≤ k) (hlt : k < n.range.stop) : Trails tree n body k where
  start := hstart
  front := hstart ▸ hbody.inside
  back := ⟨Nat.lt_of_le_of_lt hle hlt, hbody.inside.stop, hn.inside.stop⟩
  keyword := hk
  le_keyword := hle
  keyword_lt := hlt

variable {n body : Node} {k i : Nat} (ht : Trails tree n body k)
include ht

theorem follows_moveHeader {site : Site} {pieces : List Piece} (hsite : site.content = n.range)
    (hf : e.Fine tree.text) (hfresh : e.Fresh n.range)
    (hp : InOrder tree.text 1 k n.range.stop (pieces.map Prod.fst))
    (h : Encloses tree.text e g.editor pieces) :
    Follows tree callee (moveHeader site k (partAt tree i body)) p g (Pure.pure ()) fun _ _ p' g' =>
      p' = p ∧ Continues g g' ∧
        Moved tree.text e g'.editor n.range.start body.range.stop n.range.stop
          (patchwork tree.text k n.range.stop pieces ++ " then ".toList) := by
  have hwhole : (partAt tree i body).site.whole = body.range := rfl
  have hrender := h.renderRange hfresh ht.front ht.back hf ht.keyword ht.le_keyword (Nat.le_of_lt ht.keyword_lt) hp
  obtain ⟨e₁, e₂, he₁, he₂, hmoved⟩ := h.move hfresh ht.front ht.back ht.le_keyword hp
    (String.ofList (patchwork tree.text k n.range.stop pieces) ++ " then ")
  rw [String.toList_append, String.toList_ofList] at hmoved
  unfold moveHeader
  rw [hsite, hwhole, ht.start]
  refine .step (rendered_eq hrender) rfl (.step (edit_eq he₁) rfl ?_)
  exact .last (edit_eq he₂) rfl ⟨rfl, ⟨rfl, rfl⟩, hmoved⟩

theorem follows_moved_line (hstage : g.stage = .normalize) (hfresh : e.Fresh n.range)
    (h : Moved tree.text e g.editor n.range.start body.range.stop n.range.stop x) (line : Option (List Char)) :
    Follows tree callee
      ((line.map String.ofList).forM fun line => do
        Patching.insert (partAt tree i body).site.whole.start (line ++ (← get).stage.separator)) p g
      (Pure.pure ()) fun _ _ p' g' => p' = p ∧ Continues g g' ∧
        Moved tree.text e g'.editor n.range.start body.range.stop n.range.stop
          (x ++ (line.map (· ++ "; ".toList)).getD []) := by
  cases line with
  | none => exact .pure ⟨rfl, ⟨rfl, rfl⟩, by simpa using h⟩
  | some line =>
    obtain ⟨e₁, he, h₁⟩ := h.insert hfresh ht.front ht.back (String.ofList line ++ g.stage.separator)
    have hseparator : g.stage.separator = "; " := by rw [hstage]; rfl
    have hwhole : (partAt tree i body).site.whole.start = n.range.start := ht.start
    rw [hseparator, String.toList_append, String.toList_ofList] at h₁
    refine .step (m := get) (a := g) rfl rfl ?_
    rw [hwhole]
    exact .last (edit_eq he) rfl ⟨rfl, ⟨rfl, rfl⟩, h₁⟩

/-- The body that the header moved in front of is patched last. -/
theorem follows_moved {of : Node → Translating (List Char)} {nodes : List Node} {p₀ : Patcher Construct}
    {g₀ : Context} (ha : Answers tree callee of nodes p₀) (hi : nodes[i]? = some body)
    (hp : p.parts[i]? = p₀.parts[i]?) (hready : Ready tree g₀ n.range) (hsteady : ¬ n.Steady tree)
    (hcontext : Continues g₀ g)
    (h : Moved tree.text g₀.editor g.editor n.range.start body.range.stop n.range.stop x) :
    Follows tree callee (Script.patch i) p g (of body >>= fun y => Pure.pure (x ++ y)) fun z _ _ g' =>
      Patched tree n z g₀ g' := by
  have hrange : (⟨n.range.start, body.range.stop⟩ : Span) = body.range := by rw [← ht.start]
  refine (follows_call ha hi hp (hready.continue hcontext h.fine (hrange ▸ h.body))).map ?_
  rintro y _ p' g' ⟨hpatched, -⟩
  exact {
    context := hcontext.trans hpatched.context
    rewrites := h.rewrites ht.front ht.back (hrange ▸ hpatched.rewrites)
    quiet := fun hquiet => absurd hquiet hsteady }

end Header

end Respell.Normalize
