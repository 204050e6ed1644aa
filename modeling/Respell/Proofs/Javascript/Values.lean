import Respell.Proofs.Javascript.Binding
import Respell.Proofs.Javascript.Tails

/-!
What can be written as a value.

Patchers decide by their constructs whether they can stand for a value, whether a conditional in parentheses reads as
one, and whether a function needs braces.  Each of these can be read off the tree (`Shows.isExpression_eq`,
`Shows.isParenthesizedValue_eq`, `Fits.canBeConcise_eq`).
-/

namespace Respell.Javascript

open List

variable {tree : Tree} {n c : Node} {nodes : List Node} {p : Patcher Construct}

theorem areExpressions_eq (ps : List (Patcher Construct)) : areExpressions ps = (ps.map isExpression).all id := by
  induction ps with
  | nil => rfl
  | cons p ps ih => simp [areExpressions, ih]

theorem map_eq_of_forall₂ {α β γ : Type} {R : α → β → Prop} {f : α → γ} {f' : β → γ} {as : List α} {bs : List β}
    (h : List.Forall₂ R as bs) (hf : ∀ a ∈ as, ∀ b ∈ bs, R a b → f' b = f a) : bs.map f' = as.map f := by
  induction h with
  | nil => rfl
  | cons hab _ ih =>
    rw [map_cons, map_cons, hf _ mem_cons_self _ mem_cons_self hab,
      ih fun a ha b hb => hf a (mem_cons_of_mem _ ha) b (mem_cons_of_mem _ hb)]

/-- A construct can stand for a value if its node can, given that this holds of the parts. -/
theorem Fits.isExpression_eq (hn : n.Sound tree) (hparen : n.kind ≠ .parenExpr) (h : Fits tree n nodes p.construct)
    (hparts : p.parts.map isExpression = nodes.map Node.hasValue) : isExpression p = n.hasValue := by
  obtain ⟨site, phase, k, parts⟩ := p
  change Fits tree n nodes k at h
  change parts.map isExpression = _ at hparts
  have hlength : parts.length = nodes.length := by simpa using congrArg List.length hparts
  rw [Node.hasValue_eq]
  cases h with
  | block kind => simp [isExpression, areExpressions_eq, hparts, hlength, kind, Kind.isValue]
  | @conditional v condition consequent _ view leading viewCondition =>
    obtain ⟨s, hs, rfl⟩ := exists_conditional hn view leading
    rw [conditional_children hs, conditional_kind view]
    cases parts with
    | nil => simp [conditionalNodes, viewCondition] at hlength
    | cons q parts =>
      simp only [conditionalNodes, viewCondition, Option.toList_some, map_cons, cons_append, nil_append,
        List.cons.injEq] at hparts
      simp [isExpression, areExpressions_eq, hparts, conditionalNodes, viewCondition, Kind.isValue]
  | loop view => simp [isExpression, loop_kind view, Kind.isValue]
  | function view => simp [isExpression, function_kind view, Kind.isValue]
  | assignment view => obtain ⟨-, -, hk | hk⟩ := assignment_view view <;> simp [isExpression, hk, Kind.isValue]
  | returning kind => simp [isExpression, kind, Kind.isValue]
  | expression plain view kind =>
    rw [isExpression]
    · revert plain kind hparen
      cases n.kind <;> simp [isPlain, Kind.isValue]
    all_goals simp

theorem Shows.isExpression_eq (h : Shows tree n p) (hn : n.Sound tree) : isExpression p = n.hasValue := by
  induction hp : p.height using Nat.strongRecOn generalizing n p with
  | ind height ih =>
    obtain ⟨nodes, -, hfits, hparts, -, -, -⟩ := h
    obtain ⟨hinner, hparen, -, -⟩ := hn.unwrapParens
    rw [← hn.hasValue_unwrapParens]
    refine hfits.isExpression_eq hinner hparen (map_eq_of_forall₂ hparts fun c hc q hq hshows => ?_)
    have hlt := Patcher.height_lt_of_mem hq
    have hbelow := Node.mem_descendants_of_elements (hfits.mem_descendants hinner hc)
    exact ih q.height (by omega) hshows (hinner.descendant hbelow).1 rfl

theorem isParenthesized_eq (hn : n.Sound tree) {s : Site} (hs : s.On n) :
    s.isParenthesized = (n.kind == .parenExpr) := by
  cases hp : s.isParenthesized with
  | true => rw [kind_of_isParenthesized hs hp, beq_self_eq_true]
  | false =>
    symm
    refine beq_false_of_ne fun hk => ?_
    obtain ⟨c, -, hc, hunwrap, hstart, -⟩ := hn.paren hk
    have hle := hc.unwrapParens.2.2.1
    simp only [Site.isParenthesized, hs.whole, hs.content, hunwrap, bne_eq_false_iff_eq] at hp
    rw [← hp] at hle
    omega

theorem Shows.isParenthesizedValue_eq (h : Shows tree n p) (hn : n.Sound tree) :
    isParenthesizedValue p = (n.kind == .parenExpr && n.unwrapParens.kind == .ifExpr && n.hasValue) := by
  rw [isParenthesizedValue, isParenthesized_eq hn h.site, h.site.kind, h.isExpression_eq hn]

theorem isBound_eq {v : FunctionView} {f : Function} (hv : FunctionView.ofNode? tree n = some v)
    (harrow : v.arrow.bind tree.token? = some f.arrow) : f.isBound = v.isBound := by
  unfold FunctionView.ofNode? at hv
  split at hv
  case isFalse => cases hv
  case isTrue =>
    cases hv
    obtain ⟨i, hi, ht⟩ := Option.bind_eq_some_iff.1 harrow
    simp only at hi ⊢
    rw [hi, Option.any_some, Tree.kindAt, ht]
    rfl

theorem hasParamLines_eq {vs : List ParamView} {f : Function} (h : List.Forall₂ (Param.Fits nodes) vs f.params) :
    f.hasParamLines = !vs.all fun q => q.binding.kind != .thisMember && q.default?.isNone := by
  rw [Function.hasParamLines]
  generalize f.params = qs at h
  induction h with
  | nil => rfl
  | @cons v q vs qs hq _ ih =>
    have hdefault : q.default?.isSome = v.default?.isSome := by
      have hrel := hq.default?
      generalize v.default? = o, q.default? = o' at hrel ⊢
      cases hrel <;> rfl
    rw [any_cons, all_cons, ih, hq.isMember, hdefault, Bool.not_and, Bool.not_and, Option.not_isNone, bne, Bool.not_not]

theorem Fits.canBeConcise_eq {f : Function} (hn : n.Sound tree) (h : Fits tree n nodes (.function f))
    (hparts : List.Forall₂ (Shows tree) nodes p.parts) : f.canBeConcise tree p = n.isConcise tree := by
  cases h with
  | @function v _ view arrow paramList params partBody concise =>
    rw [Node.isConcise, view, Option.any_some, Function.canBeConcise, isBound_eq view arrow, hasParamLines_eq params]
    cases hbody : f.body with
    | none =>
      rw [hbody] at partBody
      generalize v.body = o at partBody
      cases partBody
      simp
    | some body =>
      rw [hbody] at partBody
      obtain ⟨b, hb, hpart⟩ := exists_of_rel_some partBody
      obtain ⟨hmem, -, hk⟩ := mem_children_of_body view hb
      have hlt := (List.getElem?_eq_some_iff.1 hpart.place).1
      rw [hparts.length_eq] at hlt
      obtain ⟨c, hc, hshows⟩ := forall₂_getElem? hparts (getElem?_eq_getElem hlt)
      cases hpart.place.symm.trans hc
      simp [hb, getElem?_eq_getElem hlt, hshows.isExpression_eq (hn.child hmem), isIndented_eq hpart.site hk,
        Bool.and_assoc]

end Respell.Javascript
