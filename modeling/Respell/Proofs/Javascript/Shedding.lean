import Respell.Proofs.Javascript.Returned

/-!
Statements and the parentheses around them.

A conditional that is patched as a statement removes the parentheses around it, and nothing that comes later brings them
back (`shedding_patch`), so they are not in the text in the end (`conditionals_shed_parens`).  Other statements keep
theirs (`statements_keep_parens`).
-/

namespace Respell

/-- The spans in the parentheses around a construct. -/
def Site.parens (s : Site) : Set Span :=
  {r | r.start < r.stop ∧ (Span.contains ⟨s.whole.start, s.content.start⟩ r = true ∨
    Span.contains ⟨s.content.stop, s.whole.stop⟩ r = true)}

namespace Javascript

open Script

variable {tree : Tree} {n : Node} {p q : Patcher Construct}

/-- From one context to the other nothing that was replaced came back, and the conditionals in the patcher that are
patched as statements lost their parentheses. -/
def Shedding (tree : Tree) (p : Patcher Construct) (g g' : Context) : Prop :=
  ∀ n, n.Sound tree → Poised tree n p → (∃ m, Returns 0 g m g') ∧
    ∀ path q, p.follow? path = some q → q.site.kind = .ifExpr → q.site.needsValue = false →
      ∀ r ∈ q.site.parens, g'.editor.Replaces r

/-- A conditional that is patched as a statement loses its own parentheses, and its parts do not bring them back. -/
theorem Conditional.replaces_parens {k : Conditional} {R : Nat → Context → Context → Prop}
    (hR : ∀ i g g', R i g g' → ∃ m, Returns 0 g m g') {g g' : Context} (hdoes : (k.patchStatement p).Does R g () g') :
    ∀ r ∈ p.site.parens, g'.editor.Replaces r := by
  obtain ⟨rest, heq, hrest⟩ := k.exists_rest p
  rw [heq] at hdoes
  obtain ⟨_, g₁, hfirst, hdoes⟩ := does_bind.1 hdoes
  obtain ⟨_, g₂, hsecond, hdoes⟩ := does_bind.1 hdoes
  obtain ⟨m, hm⟩ := (hrest 0 g₂).exists_of_does hR hdoes
  obtain ⟨e₁, he₁, rfl⟩ := exists_of_edit (does_step.1 hfirst)
  obtain ⟨e₂, he₂, rfl⟩ := exists_of_edit (does_step.1 hsecond)
  rintro r ⟨hlt, hin | hin⟩
  · exact hm.kept r ((Editor.replaces_of_remove hin hlt he₁).of_remove he₂)
  · exact hm.kept r (Editor.replaces_of_remove hin hlt he₂)

theorem shedding_of_does {g g' : Context} (placed : p.construct.Placed p.parts.length)
    (hdoes : (p.patchScript hooks).Does (OnPart (Shedding tree) p.parts) g () g') : Shedding tree p g g' := by
  rintro n hn ⟨nodes, hsite, hfits, -, -, hparts⟩
  have hm := hn.unwrapParens.1
  have hpart (i : Nat) (q : Patcher Construct) (hq : p.parts[i]? = some q) : ∃ c, c.Sound tree ∧ Poised tree c q := by
    obtain ⟨c, hc, hpoised⟩ := forall₂_getElem? hparts hq
    exact ⟨c, (hm.descendant (Node.mem_descendants_of_elements (hfits.mem_descendants hm (List.mem_of_getElem? hc)))).1,
      hpoised⟩
  have hR (i : Nat) (g g' : Context) (h : OnPart (Shedding tree) p.parts i g g') : ∃ m, Returns 0 g m g' := by
    cases hq : p.parts[i]? with
    | none =>
      rw [OnPart, hq] at h
      exact ⟨0, .of_editor (congrArg _ h) (congrArg _ h)⟩
    | some q =>
      obtain ⟨c, hc, hpoised⟩ := hpart i q hq
      exact ((OnPart.of_getElem? h hq) c hc hpoised).1
  have hadds := brings_patchScript (o := 0) hm hfits g
  refine ⟨hadds.exists_of_does hR hdoes, fun path q hq hk hvalue r hr => ?_⟩
  cases path with
  | nil =>
    cases hq
    obtain ⟨k, hconditional⟩ := hfits.eq_conditional (hsite.kind ▸ hk)
    unfold Patcher.patchScript at hdoes
    simp only [hooks, patchValue, patchStatement, hvalue, hconditional] at hdoes
    exact Conditional.replaces_parens hR hdoes r hr
  | cons i path =>
    rw [Patcher.follow?_cons] at hq
    obtain ⟨t, ht, hq⟩ := Option.bind_eq_some_iff.1 hq
    obtain ⟨_, rfl, hcalled⟩ := InTurn.exists_part hR (disciplined.patch p placed) hadds hdoes
    obtain ⟨g₁, g₂, m, m', -, hcall, hafter⟩ := hcalled i (Nat.zero_le i) (List.getElem?_eq_some_iff.1 ht).1
    obtain ⟨c, hc, hpoised⟩ := hpart i t ht
    exact hafter.kept r (((OnPart.of_getElem? hcall ht) c hc hpoised).2 path q hq hk hvalue r hr)

theorem shedding_patch (hp : p.Tidy Construct.Placed .prepared) {g : Context}
    (hok : (p.call hooks .patch g).result = .ok ()) : Shedding tree p g (p.call hooks .patch g).context :=
  disciplined.patch_induction (fun _ _ _ _ placed hdoes => shedding_of_does placed hdoes) hp hok

/-- Whatever stands in the parentheses around a conditional that was patched as a statement is replaced from then on,
and in the end. -/
theorem Ran.replaces_parens {g₁ g₂ : Context} (hran : Ran tree g₁ g₂ p q) (h : tree.root.Sound tree)
    (hroot : tree.root.kind = .program) {block : Node}
    (hchildren : tree.root.children = [block]) (hblock : block.kind = .block)
    {e : List Nat × Patcher.Answer Context Construct} (he : e ∈ calls tree) (hcall : e.2.call ≠ .prepare)
    (hvalue : e.2.call.asksValue e.2.patcher = false) (hk : e.2.patcher.site.kind = .ifExpr) :
    ∀ r ∈ e.2.patcher.site.parens, e.2.outcome.context.editor.Replaces r ∧ (edits tree).Replaces r := by
  intro r hr
  obtain ⟨c, hc, hpart, hasks⟩ := hran.poised_of_mem h hroot hchildren hblock he hcall
  rw [hasks] at hvalue
  obtain ⟨hpoised, -, htidy, -⟩ := hran.poised h hroot hchildren hblock
  have hmem := Node.mem_descendants_of_child (n := tree.root) (c := block) (by simp [hchildren])
  rw [hran.calls_eq] at he
  rcases List.mem_append.1 he with he | he
  · exact absurd (hooks_quiet.call_of_mem_log p g₁ e he) hcall
  · obtain ⟨hfollow, htidy', ⟨g', hanswer⟩, hok⟩ := (disciplined.mem_log_patch htidy hran.patched).1 e he
    have houtcome : e.2.outcome = e.2.patcher.call hooks .patch g' := by rw [hanswer]; rfl
    rw [houtcome] at hok ⊢
    obtain ⟨-, hthen⟩ := shedding_patch htidy' hok c (h.descendant hc).1 hpart
    obtain ⟨-, hfinally⟩ := shedding_patch htidy hran.patched block (h.descendant hmem).1 hpoised
    rw [hran.edits_eq]
    exact ⟨hthen [] e.2.patcher rfl hk hvalue r hr, hfinally e.1 e.2.patcher hfollow hk hvalue r hr⟩

/-- The text that the stage gives is what its edits make. -/
theorem render_edits {out : String} (h : (run tree (.ofTree tree .main)).1 = .ok out) :
    (edits tree).render = .ok out := by
  have hrendered : Patching.Safe (fun _ => True) (run tree) (.ofTree tree .main) fun out g =>
      g.editor.render = .ok out := by
    refine (Patching.Safe.outcome _ _).bind fun _ _ _ => Patching.Safe.get_bind ?_
    refine (Patching.Safe.outcome _ _).bind fun _ _ _ => (Patching.Safe.outcome _ _).bind fun _ g _ =>
      Patching.Safe.get_bind ?_
    dsimp only
    cases hrender : g.editor.render with
    | error e => trivial
    | ok text => exact hrender
  exact hrendered.of_eq (Prod.ext h rfl)

/-- Conditionals shed their parentheses.  If the stage gives a text, every token that stands in the parentheses around
a conditional that was patched as a statement is replaced as soon as the conditional has been patched, and by the edits
that make this text, however many parentheses there are; so it is not copied. -/
theorem conditionals_shed_parens {text out : String} (h : Stage.apply .main text = .ok out) :
    let tree := (Parse.ofText text.toList).tree
    (edits tree).render = .ok out ∧
    ∀ e ∈ calls tree, e.2.call ≠ .prepare → e.2.call.asksValue e.2.patcher = false →
      e.2.patcher.site.kind = .ifExpr → ∀ t ∈ tree.tokens, t.isSignificant = true →
        e.2.patcher.site.whole.contains t.range = true →
        (t.range.stop ≤ e.2.patcher.site.content.start ∨ e.2.patcher.site.content.stop ≤ t.range.start) →
          ((edits tree).Replaces t.range ∧
            ∀ o, t.range.start ≤ o → o < t.range.stop → (edits tree).reading.covers o = true) ∧
          e.2.outcome.context.editor.Replaces t.range ∧
            ∀ o, t.range.start ≤ o → o < t.range.stop → e.2.outcome.context.editor.reading.covers o = true := by
  obtain ⟨herrors, hrun⟩ := run_of_apply h
  refine ⟨render_edits hrun, fun e he hcall hvalue hk t ht hsignificant hwhole houtside => ?_⟩
  obtain ⟨hroot, block, hchildren, hblock⟩ := Parse.root_ofText text.toList
  obtain ⟨hsound, i, hi, htoken⟩ := exists_index herrors ht hsignificant
  obtain ⟨-, hlt, -⟩ := hsound.within_of_mem hi htoken hsignificant
  obtain ⟨g₁, g₂, p, q, hran⟩ := exists_ran hrun
  rw [Span.contains_iff] at hwhole
  have hparens : t.range ∈ e.2.patcher.site.parens := ⟨hlt, houtside.imp
    (fun hstop => Span.contains_iff.2 ⟨hwhole.1, hstop⟩) fun hstart => Span.contains_iff.2 ⟨hstart, hwhole.2⟩⟩
  obtain ⟨hthen, hfinally⟩ := hran.replaces_parens hsound hroot hchildren hblock he hcall hvalue hk t.range hparens
  exact ⟨⟨hfinally, fun o hstart hstop => hfinally.covers hstart hstop⟩,
    hthen, fun o hstart hstop => hthen.covers hstart hstop⟩

/-- Two conditionals, one in the other, each in two pairs of parentheses. -/
theorem conditionals_shed_parens_twice :
    let text := "((if a then for x in y then ((if b then return))))\n"
    let tree := (Parse.ofText text.toList).tree
    let parens := tree.tokens.filter fun t => t.kind == .leftParen || t.kind == .rightParen
    (Stage.apply .main text).toOption = some "if (a) \x7b for (let x of y) \x7b if (b) \x7b return; \x7d \x7d \x7d\n" ∧
      parens.map (·.range.start) = [0, 1, 28, 29, 46, 47, 48, 49] ∧
      ∀ t ∈ parens, (edits tree).Replaces t.range ∧ (edits tree).reading.covers t.range.start = true := by
  intro text tree parens
  have hout : (Stage.apply .main text).toOption =
      some "if (a) \x7b for (let x of y) \x7b if (b) \x7b return; \x7d \x7d \x7d\n" := by decide +kernel
  have hcalls : ∀ t ∈ parens, t.isSignificant = true ∧ t.range.start < t.range.stop ∧
      ∃ e ∈ calls tree, e.2.call ≠ .prepare ∧ e.2.call.asksValue e.2.patcher = false ∧
        e.2.patcher.site.kind = .ifExpr ∧ e.2.patcher.site.whole.contains t.range = true ∧
        (t.range.stop ≤ e.2.patcher.site.content.start ∨ e.2.patcher.site.content.stop ≤ t.range.start) := by
    decide +kernel
  refine ⟨hout, by decide +kernel, fun t ht => ?_⟩
  obtain ⟨hsignificant, hlt, e, he, hcall, hvalue, hk, hwhole, houtside⟩ := hcalls t ht
  obtain ⟨⟨hreplaces, hcovers⟩, -⟩ := (conditionals_shed_parens (eq_ok_of_toOption hout)).2 e he hcall hvalue hk t
    (List.mem_filter.1 ht).1 hsignificant hwhole houtside
  exact ⟨hreplaces, hcovers _ (Nat.le_refl _) hlt⟩

/-- An assignment by existence in parentheses is patched as a statement, and the parentheses stay around the `if` that
it becomes.  They stay around a loop too, and behind the `let` of an assignment. -/
theorem statements_keep_parens :
    let text := "(a ?= b)\n"
    let tree := (Parse.ofText text.toList).tree
    (compile .main text).toOption = some "let a;\n(if (a == null) \x7b a = b; \x7d)\n" ∧
      (∃ e ∈ calls tree, e.2.call ≠ .prepare ∧ e.2.call.asksValue e.2.patcher = false ∧
        e.2.patcher.site.whole = ⟨0, 8⟩ ∧ e.2.patcher.site.content = ⟨1, 7⟩ ∧ (edits tree).reading.covers 0 = false) ∧
      (compile .main "(for x in y then z)\n").toOption = some "(for (let x of y) \x7b z; \x7d)\n" ∧
      (compile .main "(a = 1)\n").toOption = some "let (a = 1);\n" := by
  decide +kernel

end Javascript

end Respell
