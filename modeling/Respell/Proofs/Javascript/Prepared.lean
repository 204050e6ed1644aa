import Respell.Proofs.Javascript.Assembled

/-!
Preparing patchers.

Preparing a patcher asks some of its parts for their values and marks others as the last statements of
a function.  It edits nothing, and the patcher shows the same node as before (`prepare_safe`).  What is
needed later is that a construct that is asked for its value has asked its parts, and that only those are
asked that may be.
-/

namespace Respell

open List

/-- The two contexts agree on the tree, on what was done to the text and on what is to be declared. -/
structure Context.Alike (g g' : Context) : Prop where
  tree : g'.tree = g.tree
  stage : g'.stage = g.stage
  editor : g'.editor = g.editor
  declarations : g'.declarations = g.declarations
  moved : g'.moved = g.moved

namespace Context.Alike

theorem refl (g : Context) : g.Alike g := ⟨rfl, rfl, rfl, rfl, rfl⟩

theorem trans {g g' g'' : Context} (h : g.Alike g') (h' : g'.Alike g'') : g.Alike g'' :=
  ⟨h'.tree.trans h.tree, h'.stage.trans h.stage, h'.editor.trans h.editor,
    h'.declarations.trans h.declarations, h'.moved.trans h.moved⟩

end Context.Alike

namespace Javascript

variable {tree : Tree} {n : Node} {nodes : List Node} {value : Bool} {ps : List (Patcher Construct)}
  {q p : Patcher Construct}

/-! ## Parts of a construct -/

section Fits

variable {n c : Node} {nodes : List Node} {k : Construct} {value : Bool} {v : FunctionView}

theorem asked_default (hv : FunctionView.ofNode? tree n = some v) (hc : c ∈ v.params.filterMap (·.default?)) :
    c.asked tree true ⊆ n.asked tree value := by
  obtain ⟨list, hlist, d, hd, hc, hk, hkList, hkParam⟩ := exists_param_of_default hv hc
  have hlist : list.asked tree true ⊆ n.asked tree value :=
    Node.asked_true_child hlist (by simp [asks, hk, hkList])
  have hd : d.asked tree true ⊆ list.asked tree true :=
    Node.asked_true_child hd (asks_of_isPlain (by rw [hkList]; rfl))
  have hc : c.asked tree true ⊆ d.asked tree true :=
    Node.asked_true_child hc (asks_of_isPlain (by rw [hkParam]; rfl))
  exact List.Subset.trans (List.Subset.trans hc hd) hlist

theorem exists_default {vs : List ParamView} {qs : List Param} (h : List.Forall₂ (Param.Fits nodes) vs qs)
    {d : Part} (hd : d ∈ qs.filterMap (·.default?)) : ∃ c ∈ vs.filterMap (·.default?), d.Of nodes c := by
  obtain ⟨q, hq, hd⟩ := mem_filterMap.1 hd
  obtain ⟨i, hi⟩ := getElem?_of_mem hq
  obtain ⟨v, hv, hfits⟩ := forall₂_getElem? h hi
  have hdefault := hfits.default?
  rw [hd] at hdefault
  obtain ⟨c, hc, hd⟩ := exists_of_rel_some hdefault
  exact ⟨c, mem_filterMap.2 ⟨v, mem_of_getElem? hv, hc⟩, hd⟩

theorem any_fatArrow {t : Token} (hv : FunctionView.ofNode? tree n = some v) (ht : v.arrow.bind tree.token? = some t)
    (hk : (t.kind == .fatArrow) = true) : n.ownTokens.any (tree.kindAt · == .fatArrow) = true := by
  unfold FunctionView.ofNode? at hv
  split at hv
  case isFalse => cases hv
  case isTrue =>
    cases hv
    obtain ⟨i, hi, ht⟩ := Option.bind_eq_some_iff.1 ht
    refine any_eq_true.2 ⟨i, mem_of_find?_eq_some hi, ?_⟩
    rw [Tree.kindAt, ht]
    exact hk

/-- A part is a child, or a default value. -/
theorem Fits.part_cases (hn : n.Sound tree) (h : Fits tree n nodes k) (hc : c ∈ nodes) :
    c ∈ n.children ∨
      ∃ v, FunctionView.ofNode? tree n = some v ∧ c ∈ v.params.filterMap (·.default?) := by
  cases h with
  | block | expression => exact Or.inl hc
  | conditional view => exact Or.inl (mem_children_of_conditionalNodes hn view hc)
  | loop view => exact Or.inl (mem_children_of_loopNodes hn view hc)
  | function view =>
    rcases mem_append.1 hc with hc | hc
    · exact Or.inr ⟨_, view, hc⟩
    · exact Or.inl (mem_children_of_body view (Option.mem_toList.1 hc)).1
  | assignment view viewLhs viewRhs =>
    obtain ⟨hlhs, hrhs, -⟩ := assignment_view view
    left
    rcases mem_cons.1 hc with rfl | hc
    · exact mem_of_getElem? (hlhs.symm.trans viewLhs)
    · rw [mem_singleton.1 hc]
      exact mem_of_getElem? (hrhs.symm.trans viewRhs)
  | returning => exact Or.inl (mem_of_mem_head? (Option.mem_toList.1 hc))

theorem Fits.mem_descendants (hn : n.Sound tree) (h : Fits tree n nodes k) (hc : c ∈ nodes) :
    c ∈ n.elements.descendants := by
  rcases h.part_cases hn hc with hc | ⟨v, hv, hc⟩
  · exact Node.child_mem_descendants hc
  · exact mem_descendants_of_functionNodes hv (mem_append_left _ hc)

theorem Fits.asked_false (hn : n.Sound tree) (h : Fits tree n nodes k) (hc : c ∈ nodes) :
    c.asked tree false ⊆ n.asked tree value := by
  rcases h.part_cases hn hc with hc | ⟨v, hv, hc⟩
  · exact Node.asked_false_child hc
  · exact List.Subset.trans c.asked_mono (asked_default hv hc)

/-- A construct that asks its parts for their values may do so. -/
theorem Fits.asked_true (hn : n.Sound tree) (h : Fits tree n nodes k) (hasks : k.asksParts = true)
    (hc : c ∈ nodes) : c.asked tree true ⊆ n.asked tree true := by
  rcases h.part_cases hn hc with hc | ⟨v, hv, hc⟩
  · refine Node.asked_true_child hc ?_
    cases h with
    | block kind => simp [asks, kind]
    | conditional view => simp [asks, conditional_kind view]
    | assignment view =>
      obtain ⟨-, -, hk | hk⟩ := assignment_view view <;> exact asks_of_isPlain (by rw [hk]; rfl)
    | expression plain => exact asks_of_isPlain plain
    | loop | function | returning => cases hasks
  · exact asked_default hv hc

/-- What a conditional without parentheses of its own becomes. -/
theorem Shows.conditional {p : Patcher Construct} (h : Shows tree n p) (hk : n.kind = .ifExpr) :
    ∃ c, p.construct = .conditional c := by
  obtain ⟨nodes, -, hfits, -, -, -, -⟩ := h
  rw [Node.unwrapParens_of_ne (by rw [hk]; decide)] at hfits
  exact hfits.eq_conditional hk

theorem kind_of_isParenthesized {s : Site} (hs : s.On n) (h : s.isParenthesized = true) : n.kind = .parenExpr := by
  by_contra hk
  rw [Site.isParenthesized, hs.whole, hs.content, Node.unwrapParens_of_ne hk] at h
  simp at h

theorem isIndented_eq {s : Site} (hs : s.On n) (hk : n.kind = .block) : isIndented tree s = n.isIndented tree := by
  rw [isIndented, hs.node, Node.unwrapParens_of_ne (by rw [hk]; decide)]
  rfl

/-- The first part of a block stands for its first statement. -/
theorem exists_first {body : Part} {b : Node} {parts : List (Patcher Construct)} {s : Patcher Construct}
    (hbody : body.Of nodes b) (hparts : List.Forall₂ (Shows tree) nodes parts) (hk : b.kind = .block)
    (hs : (parts[body.place]?.bind fun q =>
      match q.construct with
      | .block _ => q.parts.head?
      | _ => none) = some s) : ∃ c ∈ b.children.head?, s.site.On c := by
  obtain ⟨q, hq, hs⟩ := Option.bind_eq_some_iff.1 hs
  obtain ⟨_, hplace, hshows⟩ := forall₂_getElem? hparts hq
  cases hbody.place.symm.trans hplace
  obtain ⟨cs, -, hfits, hcs, -, -, -⟩ := hshows
  rw [Node.unwrapParens_of_ne (by rw [hk]; decide)] at hfits
  cases hqk : q.construct with
  | block b' =>
    rw [hqk] at hfits hs
    cases hfits
    rw [head?_eq_getElem?] at hs
    obtain ⟨c, hc, hshows⟩ := forall₂_getElem? hcs hs
    exact ⟨c, by rwa [head?_eq_getElem?], hshows.site⟩
  | conditional | loop | function | assignment | returning | expression =>
    rw [hqk] at hs
    cases hs

end Fits

/-! ## Flags -/

theorem Fits.returnLast {k : Construct} (h : Fits tree n nodes k) : Fits tree n nodes k.returnLast := by
  cases k with
  | block =>
    cases h with
    | block kind isScopeBody => exact .block kind isScopeBody
  | conditional =>
    cases h with
    | conditional view leading hcondition hconsequent condition consequent alternate =>
      exact .conditional view leading hcondition hconsequent condition consequent alternate
  | loop | function | assignment | returning | expression => exact h

/-- A part of `n` that has not been prepared, and is asked for its value only if it may be. -/
structure Pending (tree : Tree) (value : Bool) (n c : Node) (q : Patcher Construct) : Prop where
  shows : Shows tree c q
  phase : q.phase = .constructed
  within : c.asked tree q.site.needsValue ⊆ n.asked tree value

theorem Collected.pending (h : Collected tree nodes ps)
    (hnodes : ∀ c ∈ nodes, c.asked tree false ⊆ n.asked tree value) : List.Forall₂ (Pending tree value n) nodes ps := by
  induction h with
  | nil => exact .nil
  | cons hq _ ih =>
    obtain ⟨hc, hnodes⟩ := forall_mem_cons.1 hnodes
    exact .cons ⟨hq.1, hq.2.phase, by rwa [hq.2.needsValue]⟩ (ih hnodes)

theorem Pending.demandValue {c : Node} (h : Pending tree value n c q)
    (hasked : c.asked tree true ⊆ n.asked tree value) : Pending tree value n c q.demandValue := by
  obtain ⟨⟨nodes, hsite, hfits, hparts, hfresh, -, -⟩, hphase, -⟩ := h
  obtain ⟨site, phase, k, parts⟩ := q
  refine ⟨.intro nodes ⟨hsite.node, hsite.outer⟩ hfits hparts hfresh (fun h => ?_) fun h => ?_, hphase, hasked⟩ <;>
    cases hphase.symm.trans h

theorem Pending.returnLast {c : Node} (h : Pending tree value n c q) :
    Pending tree value n c (q.adjust Construct.returnLast) := by
  obtain ⟨⟨nodes, hsite, hfits, hparts, hfresh, -, -⟩, hphase, hwithin⟩ := h
  obtain ⟨site, phase, k, parts⟩ := q
  refine ⟨.intro nodes hsite hfits.returnLast hparts hfresh (fun h => ?_) fun h => ?_, hphase, hwithin⟩ <;>
    cases hphase.symm.trans h

/-! ## Scripts that only ask and mark -/

/-- A patcher at work on its own preparation, and the patcher that it was before. -/
structure Preparing (tree : Tree) (n : Node) (nodes : List Node) (p₀ p : Patcher Construct) : Prop where
  site : p.site = p₀.site
  asksParts : p.construct.asksParts = p₀.construct.asksParts
  fits : Fits tree n.unwrapParens nodes p.construct
  parts : List.Forall₂ (Pending tree p₀.site.needsValue n.unwrapParens) nodes p.parts

section Steps

variable {callee : Callee Context Construct} {n : Node} {nodes : List Node} {p₀ p : Patcher Construct} {α β : Type}

/-- The script, run on a patcher at work on its preparation, leaves it so and edits nothing. -/
def Keeps (callee : Call → Patcher Construct → Context → Outcome Context Construct Unit) (tree : Tree)
    (n : Node) (nodes : List Node) (p₀ : Patcher Construct) (m : Work α) : Prop :=
  ∀ p g, g.tree = tree → Preparing tree n nodes p₀ p →
    Script.Safe (PatchError.AtNode tree) callee m p g fun _ p' g' =>
      Preparing tree n nodes p₀ p' ∧ g.Alike g'

namespace Keeps

theorem pure (a : α) : Keeps callee tree n nodes p₀ (Pure.pure a) := fun _ g _ h => ⟨h, .refl g⟩

theorem bind {m : Work α} {f : α → Work β} (h : Keeps callee tree n nodes p₀ m)
    (hf : ∀ a, Keeps callee tree n nodes p₀ (f a)) : Keeps callee tree n nodes p₀ (m >>= f) := by
  intro p g htree hp
  refine (h p g htree hp).bind fun a p' g' h' => ?_
  exact (hf a p' g' (h'.2.tree.trans htree) h'.1).mono fun _ _ _ h'' => ⟨h''.1, h'.2.trans h''.2⟩

theorem forM {xs : List α} {f : α → Work PUnit} (h : ∀ x ∈ xs, Keeps callee tree n nodes p₀ (f x)) :
    Keeps callee tree n nodes p₀ (xs.forM f) := by
  induction xs with
  | nil => exact pure _
  | cons x xs ih =>
    obtain ⟨hx, hxs⟩ := forall_mem_cons.1 h
    exact hx.bind fun _ => ih hxs

theorem demandValue {i : Nat} (hasked : ∀ c, nodes[i]? = some c →
      c.asked tree true ⊆ n.unwrapParens.asked tree p₀.site.needsValue) :
    Keeps callee tree n nodes p₀ (Script.demandValue i) := by
  rintro ⟨site, phase, k, parts⟩ g - ⟨hsite, hasks, hfits, hparts⟩
  exact ⟨⟨hsite, hasks, hfits, forall₂_modify hparts fun c q hc h => h.demandValue (hasked c hc)⟩, .refl g⟩

theorem demandPart {q : Part} {c : Node} (hq : q.Of nodes c)
    (hasked : c.asked tree true ⊆ n.unwrapParens.asked tree p₀.site.needsValue) :
    Keeps callee tree n nodes p₀ (Script.demandValue q.place) := by
  refine demandValue fun d hd => ?_
  cases hq.place.symm.trans hd
  exact hasked

theorem returnLast (i : Nat) (a : α) : Keeps callee tree n nodes p₀ (.adjust i Construct.returnLast (.done a)) := by
  rintro ⟨site, phase, k, parts⟩ g - ⟨hsite, hasks, hfits, hparts⟩
  exact ⟨⟨hsite, hasks, hfits, forall₂_modify hparts fun _ _ _ h => h.returnLast⟩, .refl g⟩

theorem become {k : Construct} (hk : Fits tree n.unwrapParens nodes k)
    (hasks : k.asksParts = p₀.construct.asksParts) :
    Keeps callee tree n nodes p₀ (.become k (.done ())) := by
  rintro ⟨site, phase, k, parts⟩ g - ⟨hsite, -, -, hparts⟩
  exact ⟨⟨hsite, hasks, hk, hparts⟩, .refl g⟩

theorem of_get {f : Context → Work β} (hf : ∀ g : Context, g.tree = tree → Keeps callee tree n nodes p₀ (f g)) :
    Keeps callee tree n nodes p₀ (get >>= f) := by
  intro p g htree hp
  exact hf g htree p g htree hp

theorem of_modify {f : Context → Context} (hf : ∀ g : Context, g.Alike (f g)) :
    Keeps callee tree n nodes p₀ (modify f : Work PUnit) := fun _ g _ h =>
  Script.Safe.step (m := modify f) (Patching.Safe.of_modify ⟨h, hf g⟩)

end Keeps

/-- All parts are asked for their values but those at the given places. -/
def Asked (rest : List Nat) (p : Patcher Construct) : Prop :=
  ∀ j q, p.parts[j]? = some q → j ∈ rest ∨ q.site.needsValue = true

variable {g : Context}

theorem Asked.step {i : Nat} {rest : List Nat} (h : Asked (i :: rest) p) :
    Script.Safe (PatchError.AtNode tree) callee (Script.demandValue i : Work Unit) p g fun _ p' _ =>
      Asked rest p' := by
  intro j q hq
  change (p.withParts (p.parts.modify i Patcher.demandValue)).parts[j]? = some q at hq
  rw [Patcher.parts_withParts, getElem?_modify] at hq
  obtain ⟨r, hr, hq⟩ := Option.map_eq_some_iff.1 hq
  obtain ⟨site, phase, k, parts⟩ := r
  rw [← hq]
  split
  · exact Or.inr rfl
  · rename_i hne
    exact (h j _ hr).imp_left fun h => (mem_cons.1 h).resolve_left (Ne.symm hne)

theorem asked_all :
    Script.Safe (PatchError.AtNode tree) callee
      ((List.range p.parts.length).forM Script.demandValue : Work PUnit) p g fun _ p' _ => Asked [] p' := by
  refine Script.Safe.forM (I := fun rest p' _ => Asked rest p') ?_ fun i rest p' g' h => h.step
  intro j q hq
  exact Or.inl (mem_range.2 (List.getElem?_eq_some_iff.1 hq).1)

/-! ## What constructs do -/

theorem Block.keeps_demand (hk : n.unwrapParens.kind = .block) (hnodes : nodes = n.unwrapParens.children)
    {i : Nat} (hi : ∀ c, nodes[i]? = some c → c.kind ≠ .ifExpr) :
    Keeps callee tree n nodes p₀ (Script.demandValue i) := by
  refine Keeps.demandValue fun c hc => ?_
  refine Node.asked_true_child (hnodes ▸ mem_of_getElem? hc) ?_
  have := hi c hc
  simp [asks, hk, this]

theorem Block.keeps_prepareReturn (hk : n.unwrapParens.kind = .block)
    (hnodes : nodes = n.unwrapParens.children) (hparts : Collected tree nodes p₀.parts) :
    Keeps callee tree n nodes p₀ (Block.prepareReturn p₀) := by
  unfold Block.prepareReturn
  split
  · exact Keeps.pure _
  · rename_i last hlast
    rw [getLast?_eq_getElem?] at hlast
    obtain ⟨d, hd, hshows, hfresh⟩ := forall₂_getElem? hparts hlast
    have hdemand (hne : d.kind ≠ .ifExpr) : Keeps callee tree n nodes p₀
        (do Script.demandValue (p₀.parts.length - 1); return true : Work Bool) := by
      refine (keeps_demand hk hnodes fun c hc => ?_).bind fun _ => Keeps.pure _
      cases hd.symm.trans hc
      exact hne
    split
    · exact Keeps.pure _
    · exact Keeps.pure _
    · rw [hfresh.needsValue, Bool.false_or]
      split
      · rename_i hparen
        simp only [isParenthesizedValue, Bool.and_eq_true] at hparen
        exact hdemand (by rw [kind_of_isParenthesized hshows.site hparen.1.1]; decide)
      · exact Keeps.returnLast _ _
    · rename_i hne
      exact hdemand fun hk => hne _ (hshows.conditional hk).choose_spec

theorem Block.keeps_prepare {b : Block} (hb : p₀.construct = .block b)
    (hfits : Fits tree n.unwrapParens nodes (.block b)) (hparts : Collected tree nodes p₀.parts)
    (hvalue : p₀.site.needsValue = false) :
    Keeps callee tree n nodes p₀ (b.prepare p₀) := by
  have hbecome (r : Bool) : Keeps callee tree n nodes p₀ (.become (.block { b with returnsLast := r }) (.done ())) := by
    refine Keeps.become ?_ (by rw [hb]; rfl)
    cases hfits with
    | block kind isScopeBody => exact .block kind isScopeBody
  obtain ⟨hk, hnodes⟩ : n.unwrapParens.kind = .block ∧ nodes = n.unwrapParens.children := by
    cases hfits with
    | block kind => exact ⟨kind, rfl⟩
  unfold Block.prepare
  rw [hvalue]
  refine (Keeps.forM fun x hx => ?_).bind fun _ => ?_
  · show Keeps callee tree n nodes p₀ (if isParenthesizedValue x.1 then Script.demandValue x.2 else pure ())
    split
    · rename_i hparen
      simp only [isParenthesizedValue, Bool.and_eq_true] at hparen
      obtain ⟨d, hd, hshows, -⟩ := forall₂_getElem? hparts (mem_zipIdx_iff_getElem?.1 hx)
      refine keeps_demand hk hnodes fun c hc => ?_
      cases hd.symm.trans hc
      rw [kind_of_isParenthesized hshows.site hparen.1.1]
      decide
    · exact Keeps.pure _
  · dsimp only
    split
    · exact (keeps_prepareReturn hk hnodes hparts).bind fun r => hbecome r
    · exact (Keeps.pure false).bind fun r => hbecome r

theorem Conditional.keeps_prepare {c : Conditional} (hn : n.unwrapParens.Sound tree)
    (hfits : Fits tree n.unwrapParens nodes (.conditional c)) (hvalue : p₀.site.needsValue = false) :
    Keeps callee tree n nodes p₀ (c.prepare p₀) := by
  unfold Conditional.prepare
  rw [hvalue]
  refine Keeps.bind ?_ fun _ => ?_
  · cases hfits with
    | conditional view _ viewCondition _ partCondition =>
      have hmem := mem_children_of_conditionalNodes hn view (mem_of_getElem? partCondition.place)
      refine Keeps.demandPart partCondition (Node.asked_true_child hmem ?_)
      simp [asks, conditional_kind view, view, viewCondition]
  · split
    · exact Keeps.forM fun b _ => Keeps.returnLast _ _
    · exact Keeps.pure _

theorem Loop.keeps_prepare {l : Loop} (hn : n.unwrapParens.Sound tree)
    (hfits : Fits tree n.unwrapParens nodes (.loop l)) : Keeps callee tree n nodes p₀ l.prepare := by
  cases hfits with
  | @loop v target body _ view viewTarget _ _ partKey partValue partTarget partFilter _ =>
    have hk := loop_kind view
    obtain ⟨s, hs⟩ := hn.exists_loopShape hk
    obtain ⟨_, hview, -, -, htarget, -, hkey, hvalue, hfilter⟩ := hs.exists_view hk
    cases hview.symm.trans view
    have hheader {c : Node} {q : Part} (hq : q.Of (loopNodes v) c) (hc : c ∈ s.header.nodes) :
        Keeps callee tree n (loopNodes v) p₀ (Script.demandValue q.place) := by
      refine Keeps.demandPart hq (Node.asked_true_child (hs.mem_children (Or.inr hc)) ?_)
      simp [asks, hk, hs.header.ne_block c hc]
    refine Keeps.forM fun q hq => ?_
    simp only [mem_append, mem_cons, Option.mem_toList] at hq
    rcases hq with (hq | hq) | rfl | hq
    · rw [hq] at partKey
      obtain ⟨c, hc, hq⟩ := exists_of_rel_some partKey
      exact hheader hq (hkey c hc)
    · rw [hq] at partValue
      obtain ⟨c, hc, hq⟩ := exists_of_rel_some partValue
      exact hheader hq (hvalue c hc)
    · cases htarget.symm.trans viewTarget
      exact hheader partTarget s.header.target_mem
    · rw [hq] at partFilter
      obtain ⟨c, hc, hq⟩ := exists_of_rel_some partFilter
      exact hheader hq (hfilter c hc)

theorem Function.keeps_prepare {f : Function} (hf : p₀.construct = .function f)
    (hfits : Fits tree n.unwrapParens nodes (.function f)) :
    Keeps callee tree n nodes p₀ (f.prepare p₀) := by
  have hbecome (g : Context) : Keeps callee tree n nodes p₀
      (.become (.function { f with isConcise := f.canBeConcise g.tree p₀ }) (.done ())) := by
    refine Keeps.become ?_ (by rw [hf]; rfl)
    cases hfits with
    | function view arrow paramList params body =>
      refine .function view arrow paramList params body fun hconcise => ?_
      simp only [Function.canBeConcise] at hconcise
      split at hconcise
      · cases hconcise
      · simp only [Bool.and_eq_true, Bool.not_eq_true'] at hconcise
        exact hconcise.1.1
  cases hfits with
  | @function v _ view arrow paramList params partBody concise =>
    refine Keeps.bind (Keeps.of_modify fun g => ?_) fun _ => ?_
    · exact ⟨rfl, rfl, rfl, rfl, rfl⟩
    refine (Keeps.forM fun d hd => ?_).bind fun _ => ?_
    · obtain ⟨c, hc, hd⟩ := exists_default params hd
      exact Keeps.demandPart hd (asked_default view hc)
    refine Keeps.of_get fun g htree => (hbecome _).bind fun _ => ?_
    cases hbody : f.body with
    | none => exact Keeps.pure _
    | some body =>
      rw [hbody] at partBody
      obtain ⟨c, hc, hpart⟩ := exists_of_rel_some partBody
      show Keeps callee tree n (functionNodes v) p₀ (if _ then _ else _)
      split
      · rename_i hconcise
        refine Keeps.demandPart hpart ?_
        obtain ⟨hmem, hk, hblock⟩ := mem_children_of_body view hc
        simp only [Function.canBeConcise, hbody, htree, isIndented_eq hpart.site hblock, Bool.and_eq_true,
          Function.isBound] at hconcise
        refine Node.asked_true_child hmem ?_
        simp only [asks, hk, Bool.or_eq_true, Bool.and_eq_true]
        exact Or.inr ⟨hconcise.1.2, any_fatArrow view arrow hconcise.1.1.1⟩
      · exact Keeps.returnLast _ _

theorem prepare_keeps (hn : n.unwrapParens.Sound tree) (hfits : Fits tree n.unwrapParens nodes p₀.construct)
    (hparts : Collected tree nodes p₀.parts)
    (h : p₀.site.needsValue = false ∨ p₀.construct.asksParts = false) :
    Keeps callee tree n nodes p₀ (prepare p₀) := by
  unfold prepare
  cases hk : p₀.construct with
  | block b => exact b.keeps_prepare hk (hk ▸ hfits) hparts (h.resolve_right (by simp [hk, Construct.asksParts]))
  | conditional c => exact c.keeps_prepare hn (hk ▸ hfits) (h.resolve_right (by simp [hk, Construct.asksParts]))
  | loop l => exact l.keeps_prepare hn (hk ▸ hfits)
  | function f => exact f.keeps_prepare hk (hk ▸ hfits)
  | assignment a =>
    rw [hk] at hfits
    cases hfits with
    | assignment view viewLhs viewRhs places partLhs partRhs =>
      obtain ⟨hlhs, hrhs, hkind⟩ := assignment_view view
      have hplain : isPlain n.unwrapParens.kind = true := by rcases hkind with h | h <;> rw [h] <;> rfl
      refine (Keeps.demandPart partLhs (Node.asked_true_child ?_ (asks_of_isPlain hplain))).bind fun _ =>
        Keeps.demandPart partRhs (Node.asked_true_child ?_ (asks_of_isPlain hplain))
      · exact mem_of_getElem? (hlhs.symm.trans viewLhs)
      · exact mem_of_getElem? (hrhs.symm.trans viewRhs)
  | returning value =>
    rw [hk] at hfits
    cases hfits with
    | returning kind partValue =>
      refine Keeps.bind (Keeps.of_modify fun g => ?_) fun _ => ?_
      · exact ⟨rfl, rfl, rfl, rfl, rfl⟩
      · cases value with
        | none => exact Keeps.pure _
        | some v =>
          obtain ⟨c, hc, hv⟩ := exists_of_rel_some partValue
          exact Keeps.demandPart hv (Node.asked_true_child (mem_of_mem_head? hc) (asks_of_isPlain (by rw [kind]; rfl)))
  | expression respelled =>
    rw [hk] at hfits
    cases hfits with
    | expression plain =>
      exact Keeps.forM fun i _ => Keeps.demandValue fun c hc =>
        Node.asked_true_child (mem_of_getElem? hc) (asks_of_isPlain plain)

/-- A construct that is asked for its value asks its parts for theirs. -/
theorem prepare_asks (htree : g.tree = tree) (hn : n.unwrapParens.Sound tree) (hp : Preparing tree n nodes p₀ p₀)
    (hvalue : p₀.site.needsValue = true) (hasks : p₀.construct.asksParts = true) :
    Script.Safe (PatchError.AtNode tree) callee (prepare p₀) p₀ g fun _ p' g' =>
      (Preparing tree n nodes p₀ p' ∧ g.Alike g') ∧ Asked [] p' := by
  have hfits := hp.fits
  have hdemand (i : Nat) : Keeps callee tree n nodes p₀ (Script.demandValue i) :=
    Keeps.demandValue fun c hc => hvalue ▸ hfits.asked_true hn hasks (mem_of_getElem? hc)
  have hall : Script.Safe (PatchError.AtNode tree) callee
      ((List.range p₀.parts.length).forM Script.demandValue : Work PUnit) p₀ g fun _ p' g' =>
      (Preparing tree n nodes p₀ p' ∧ g.Alike g') ∧ Asked [] p' :=
    (Keeps.forM (fun i _ => hdemand i) p₀ g htree hp).and asked_all
  unfold prepare
  cases hk : p₀.construct with
  | block b => simpa only [Block.prepare, hvalue, if_true] using hall
  | conditional c => simpa only [Conditional.prepare, hvalue, if_true] using hall
  | expression respelled => exact hall
  | assignment a =>
    refine ((hdemand _).bind (fun _ => hdemand _) p₀ g htree hp).and ?_
    have hstart : Asked [a.lhs.place, a.rhs.place] p₀ := by
      rw [hk] at hfits
      cases hfits with
      | assignment view hlhs hrhs places lhs rhs =>
        intro j q hq
        have hlt := (List.getElem?_eq_some_iff.1 hq).1
        rw [← hp.parts.length_eq] at hlt
        left
        rw [places.1, places.2]
        have : j < 2 := hlt
        simp only [mem_cons, not_mem_nil, or_false]
        omega
    exact hstart.step.bind fun _ _ _ h => h.step
  | loop | function | returning =>
    rw [hk] at hasks
    cases hasks

end Steps

/-! ## Calls -/

theorem collected_of_fresh (h : List.Forall₂ (Shows tree) nodes ps) (hps : ∀ q ∈ ps, Fresh q) :
    Collected tree nodes ps := forall₂_and_right h hps

variable {callee : Callee Context Construct} {g : Context}

/-- What the construct itself does when it is prepared. -/
theorem prepare_preparing (htree : g.tree = tree) (hn : n.unwrapParens.Sound tree)
    (hfits : Fits tree n.unwrapParens nodes p.construct) (hparts : Collected tree nodes p.parts) :
    Script.Safe (PatchError.AtNode tree) callee (prepare p) p g fun _ p' g' =>
      (Preparing tree n nodes p p' ∧ g.Alike g') ∧
        (p.construct.asksParts = true → p.site.needsValue = true → Asked [] p') := by
  have hstart : Preparing tree n nodes p p := ⟨rfl, rfl, hfits, hparts.pending fun c hc => hfits.asked_false hn hc⟩
  by_cases h : p.construct.asksParts = true ∧ p.site.needsValue = true
  · exact (prepare_asks htree hn hstart h.2 h.1).mono fun _ _ _ h' => ⟨h'.1, fun _ _ => h'.2⟩
  · refine (prepare_keeps hn hfits hparts ?_ p g htree hstart).mono fun _ _ _ h' =>
      ⟨h', fun h1 h2 => absurd ⟨h1, h2⟩ h⟩
    simp only [Bool.eq_false_iff]
    tauto

/-- What calls of `prepare` do: the patcher shows the same node as before, and nothing is edited. -/
def Prepares (tree : Tree) (callee : Call → Patcher Construct → Context → Outcome Context Construct Unit) :
    Prop :=
  ∀ c q g, c.Sound tree → g.tree = tree → Shows tree c q →
    (callee .prepare q g).Safe (PatchError.AtNode tree) fun _ q' g' =>
    Shows tree c q' ∧ q'.site = q.site ∧ g.Alike g'

theorem finish_safe {p' : Patcher Construct} (hn : n.Sound tree) (hp : p.site.On n) :
    Script.Safe (PatchError.AtNode tree) callee (finish p) p' g fun _ p'' g' => p'' = p' ∧ g.Alike g' := by
  unfold finish
  split
  · refine Script.Safe.bind (Q := fun _ p'' g' => p'' = p' ∧ g.Alike g')
      (Script.Safe.step (m := modifyGet (·.exitFunction))
        (Patching.Safe.of_modifyGet ⟨rfl, rfl, rfl, rfl, rfl, rfl⟩)) fun b p'' g' h => ?_
    split
    · exact ⟨_, hn.unwrapParens.1, hp.content⟩
    · exact h
  · exact ⟨rfl, .refl g⟩

/-- A part of a patcher that was `p` is asked for its value if it has to be, and only if it may be. -/
structure Obliged (tree : Tree) (n : Node) (p : Patcher Construct) (c : Node) (q : Patcher Construct) : Prop where
  sound : c.Sound tree
  shows : Shows tree c q
  within : c.asked tree q.site.needsValue ⊆ n.asked tree p.site.needsValue
  asked : p.construct.asksParts = true → p.site.needsValue = true → q.site.needsValue = true

theorem prepareScript_safe (hcallee : Prepares tree callee) (hn : n.Sound tree) (htree : g.tree = tree)
    (hp : Shows tree n p) (hphase : p.phase = .constructed) :
    Script.Safe (PatchError.AtNode tree) callee (p.prepareScript hooks) p g fun _ p' g' =>
      Shows tree n (p'.withPhase .prepared) ∧ p'.site = p.site ∧ g.Alike g' := by
  obtain ⟨nodes, hsite, hfits, hparts, hfresh, -, -⟩ := hp
  have hinner := hn.unwrapParens.1
  refine Script.Safe.prepareScript (R := Obliged tree n.unwrapParens p) (S := Obliged tree n.unwrapParens p)
    (I := g.Alike) (P := fun s k => s = p.site ∧ k.asksParts = p.construct.asksParts ∧
      Fits tree n.unwrapParens nodes k) hparts.length_eq ?_ ?_ ?_
  · refine (prepare_preparing htree hinner hfits (collected_of_fresh hparts (hfresh hphase))).mono ?_
    rintro _ p₁ g₁ ⟨⟨⟨hsite₁, hasks, hfits₁, hparts₁⟩, halike⟩, hasked⟩
    refine ⟨⟨hsite₁, hasks, hfits₁⟩, forall₂_of_getElem? hparts₁.length_eq fun i c q hc hq => ?_, halike⟩
    obtain ⟨c', hc', hpending⟩ := forall₂_getElem? hparts₁ hq
    cases hc.symm.trans hc'
    exact ⟨(hinner.descendant (Node.mem_descendants_of_elements
      (hfits.mem_descendants hinner (mem_of_getElem? hc)))).1, hpending.shows, hpending.within,
      fun h h' => (hasked h h' i q hq).resolve_left not_mem_nil⟩
  · intro c q g' hq halike
    refine (hcallee c q g' hq.sound (halike.tree.trans htree) hq.shows).mono fun _ q' g'' h => ?_
    obtain ⟨hshows, hsite', halike'⟩ := h
    exact ⟨⟨hq.sound, hshows, hsite' ▸ hq.within, hsite' ▸ hq.asked⟩, halike.trans halike'⟩
  · rintro p' g' ⟨hsite', hasks, hfits'⟩ hparts' halike
    refine (finish_safe hn (hsite' ▸ hsite)).mono fun _ p₃ g₃ h₃ => ?_
    obtain ⟨rfl, halike₃⟩ := h₃
    obtain ⟨site, phase, k, parts⟩ := p₃
    obtain rfl : site = p.site := hsite'
    refine ⟨.intro nodes hsite hfits' (hparts'.imp fun _ _ h => h.shows) (fun h => by cases h)
      (fun _ hk hvalue q hq => ?_) fun _ => hparts'.imp fun _ _ h => h.within, rfl, halike.trans halike₃⟩
    obtain ⟨i, hi⟩ := getElem?_of_mem hq
    obtain ⟨c, -, hq⟩ := forall₂_getElem? hparts' hi
    exact hq.asked (hasks ▸ hk) hvalue

/-- Preparing a patcher changes neither what it shows nor the text. -/
theorem prepare_safe (depth : Nat) : Prepares tree (Patcher.callWithin hooks depth) := by
  induction depth with
  | zero => exact fun c q g _ _ h => ⟨h, rfl, .refl g⟩
  | succ depth ih =>
    intro n p g hn htree hp
    rw [Patcher.callWithin]
    by_cases hphase : p.phase = .constructed
    · simp only [hphase, if_true]
      refine Outcome.Safe.advance ((prepareScript_safe ih hn htree hp hphase).mono fun _ p' g' h => ?_)
      refine ⟨h.1, ?_, h.2.2⟩
      cases p'
      exact h.2.1
    · simp only [hphase, if_false]
      exact ⟨_, hn.unwrapParens.1, hp.site.content⟩

end Javascript

end Respell
