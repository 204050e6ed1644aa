import Respell.Proofs.Javascript.Declaring

/-!
What patching declares: expressions, conditionals, assignments and blocks.  A construct declares what its
parts declare, and the names that it owns itself.
-/

namespace Respell.Javascript

open List Script

variable {tree : Tree} {n c d : Node} {nodes : List Node} {parts : List (Patcher Construct)} {S : Nat} {inside : Bool}
  {g : Context} {p : Patcher Construct}

/-! ## Expressions -/

theorem text_of_mem_respelled {x : Span × String} (hx : x ∈ respelled tree n) :
    x.2 ∈ ["&&", "||", "===", "!==", "!", "this.", "this"] := by
  unfold respelled at hx
  split at hx
  · obtain ⟨t, -, hx⟩ := mem_filterMap.1 hx
    obtain ⟨text, htext, rfl⟩ := Option.map_eq_some_iff.1 hx
    unfold operator? at htext
    split at htext <;> cases htext <;> simp
  iterate 3
    · obtain ⟨t, -, rfl⟩ := mem_map.1 hx
      simp
  · cases hx

theorem makes_expression (hs : Scoped tree S nodes p.parts) :
    Makes tree S true p.parts (patchExpression (respelled tree n) p) g (nodes.flatMap (declared tree))
      fun _ _ => True := by
  have hquiet : ∀ text ∈ ["&&", "||", "===", "!==", "!", "this.", "this"], NoLet text := by decide
  have hspell : Makes tree S true p.parts ((respelled tree n).forM fun x => Patching.overwrite x.1 x.2) g
      ((respelled tree n).flatMap fun _ => []) fun _ _ => True :=
    Makes.each (T := fun x _ => x ∈ respelled tree n) (forall₂_same.2 fun _ hx => hx) fun x _ hx g =>
      Makes.step (Quietly.overwrite (hquiet _ (text_of_mem_respelled hx)))
  refine (hspell.bind fun _ g₁ _ _ => Makes.patchAll hs hs.shows.length_eq.symm).perm (.of_eq ?_)
  simp

/-! ## Conditionals -/

theorem openBrace_quiet {P : String → Prop} [Ordinary P] (start : Nat) (left right : Site) :
    Quietly P (Conditional.openBrace start left right) fun _ => True := by
  have hbrace : P " \x7b" := Ordinary.foreign ⟨'\x7b', by simp, rfl⟩
  refine Quietly.of_get fun g => ?_
  split
  · exact Quietly.overwrite hbrace
  · exact Quietly.insert hbrace

theorem makes_conditional_value {cond : Conditional} (hs : Scoped tree S nodes p.parts) :
    Makes tree S true p.parts (cond.patchValue p) g (nodes.flatMap (declared tree)) fun _ _ => True := by
  refine Makes.after Quietly.remove fun _ g₁ _ _ => Makes.after (Quietly.overwrite (by decide)) fun _ g₂ _ _ => ?_
  have hcolon : Makes tree S true p.parts (cond.alternate.forM fun a =>
      Patching.overwrite ⟨cond.consequent.site.whole.stop, a.site.whole.start⟩ " : ") g₂ [] fun _ _ => True := by
    cases cond.alternate with
    | none => exact Makes.pure trivial
    | some a => exact Makes.step (Quietly.overwrite (by decide))
  have hend (g : Context) : Makes tree S true p.parts (if cond.alternate.isNone = true then
      liftM (Patching.insert cond.consequent.site.whole.stop " : undefined") else Pure.pure ()) g []
      fun _ _ => True := by
    split
    · exact Makes.step (Quietly.insert (by decide))
    · exact Makes.pure trivial
  refine (hcolon.bind fun _ g₃ _ _ => (Makes.patchAll hs hs.shows.length_eq.symm).bind fun _ g₄ _ _ => hend g₄).perm
    (.of_eq ?_)
  simp

theorem makes_conditional_statement {cond : Conditional} (hs : Scoped tree S nodes p.parts)
    (hfits : Fits tree n nodes (.conditional cond)) :
    Makes tree S true p.parts (cond.patchStatement p) g (nodes.flatMap (declared tree)) fun _ _ => True := by
  cases hfits with
  | @conditional v condition consequent _ view leading viewCondition viewConsequent partCondition partConsequent
      partAlternate =>
  refine Makes.after Quietly.remove fun _ g₁ _ _ => Makes.after Quietly.remove fun _ g₂ _ _ => ?_
  have hnodes : (conditionalNodes v).flatMap (declared tree) =
      declared tree condition ++ (declared tree consequent ++ v.alternate.toList.flatMap (declared tree)) := by
    simp [conditionalNodes, viewCondition, viewConsequent]
  rw [hnodes]
  refine (Makes.patchPart hs partCondition).bind fun _ g₃ _ _ => ?_
  refine Makes.after (Quietly.surroundInParens _) fun _ g₄ _ _ => ?_
  refine Makes.after (openBrace_quiet _ _ _) fun _ g₅ _ _ => ?_
  refine (Makes.patchPart hs partConsequent).bind fun _ g₆ _ _ => ?_
  refine Makes.after (closingBrace_quiet _ _) fun close g₇ _ hclose => ?_
  generalize v.alternate = alternate at partAlternate
  generalize cond.alternate = part at partAlternate
  cases partAlternate with
  | none => exact Makes.step (Quietly.insert (Let.ofText?_eq_none hclose))
  | @some a part hpart =>
    refine Makes.of_get fun _ => ?_
    rw [Option.toList_some, flatMap_singleton]
    split
    · exact Makes.fail
    · refine Makes.after (Quietly.overwrite (Let.ofText?_eq_none (hclose.append_left _))) fun _ g₈ _ _ => ?_
      split
      · exact Makes.patchPart hs hpart
      · refine Makes.after (openBrace_quiet _ _ _) fun _ g₉ _ _ => ?_
        refine ((Makes.patchPart hs hpart).bind fun _ g₁₀ _ _ => ?_).perm (.of_eq (append_nil _))
        refine Makes.after (closingBrace_quiet _ _) fun close g₁₁ _ hclose => ?_
        exact Makes.step (Quietly.insert (Let.ofText?_eq_none hclose))

/-! ## Assignments -/

/-- The names wait in frames. -/
theorem makes_declare {xs : List Node} (hxs : ∀ d ∈ xs, d ∈ tree.root.descendants ∧ isNew tree d = true ∧
    tree.enclosing d.id = S) {α : Type} {f : Node → α} {k : α → Context → Context}
    (hk : ∀ d ∈ xs, ∃ hoist, k (f d) = (·.declare (tree.nodeText d) hoist)) :
    Makes tree S true parts ((xs.map f).forM fun a => modify (k a)) g xs fun _ _ => True := by
  induction xs generalizing g with
  | nil => exact Makes.pure trivial
  | cons d xs ih =>
    obtain ⟨⟨hd, hnew, hscope⟩, hxs⟩ := forall_mem_cons.1 hxs
    obtain ⟨⟨hoist, heq⟩, hk⟩ := forall_mem_cons.1 hk
    have hfirst : Makes tree S true parts (modify (k (f d)) : Work PUnit) g [d] fun _ _ => True := by
      intro hg _ g' hdoes
      cases (does_step (m := modify (k (f d)))).1 hdoes
      rw [heq]
      exact ⟨.declare hoist hd hnew hscope (hg.frames rfl), trivial⟩
    exact hfirst.bind fun _ g₁ _ _ => ih hxs hk

section Assignments

variable {a : Assignment} {lhs rhs : Node}

/-- Both sides are patched, and the whole is written anew. -/
theorem makes_existence (hs : Scoped tree S [lhs, rhs] parts) (partLhs : a.lhs.Of [lhs, rhs] lhs)
    (partRhs : a.rhs.Of [lhs, rhs] rhs) {range : Span} {text : String → String → String}
    (htext : ∀ l r, Foreign (text l r)) :
    Makes tree S true parts (do
      let l ← Script.patchAndRender a.lhs
      let r ← Script.patchAndRender a.rhs
      Patching.overwrite range (text l r)) g ([lhs, rhs].flatMap (declared tree)) fun _ _ => True := by
  simp only [flatMap_cons, flatMap_nil]
  refine (Makes.patchAndRender hs partLhs).bind fun l g₁ _ _ => ?_
  refine (Makes.patchAndRender hs partRhs).bind fun r g₂ _ _ => ?_
  exact Makes.step (Quietly.overwrite (Let.ofText?_eq_none (htext l r)))

variable (h : tree.root.Sound tree) (hn : n ∈ tree.root.descendants)
  (hfits : Fits tree n.unwrapParens nodes (.assignment a)) (hs : Scoped tree (tree.enclosing n.id) nodes p.parts)

theorem own_of_fits {v : AssignmentView} (view : AssignmentView.ofNode? n = some v)
    (viewLhs : v.lhs = some lhs) : own tree n = (targets lhs).filter (isNew tree) ∧ lhs ∈ boundIn tree n := by
  obtain ⟨hview, -, hkind⟩ := assignment_view view
  have hbound : boundIn tree n = [lhs] := by
    rw [boundIn_of_assign hkind, head?_eq_getElem?, ← hview, viewLhs]
    rfl
  simp [own, hbound]

include h hn hfits

theorem makes_declareAll :
    Makes tree (tree.enclosing n.id) true parts a.declareAll g (own tree n.unwrapParens) fun _ _ => True := by
  cases hfits with
  | @assignment v lhs rhs _ view viewLhs _ _ _ _ declares =>
  obtain ⟨hown, hlhs⟩ := own_of_fits view viewLhs
  have hroot : n.unwrapParens ∈ tree.root.descendants :=
    Node.descendants_trans hn n.unwrapParens_mem
  rw [Assignment.declareAll, declares, hown]
  refine makes_declare (fun d hd => ?_) fun d _ => ⟨_, rfl⟩
  obtain ⟨hd, hnew⟩ := mem_filter.1 hd
  obtain ⟨hbelow, hscope⟩ := of_mem_targets h hroot hlhs hd
  exact ⟨Node.descendants_trans hroot hbelow, hnew, hscope.trans (tree.enclosing_unwrapParens h hn)⟩

include hs

theorem makes_assignment_value :
    Makes tree (tree.enclosing n.id) true p.parts (a.patchValue p) g
      (own tree n.unwrapParens ++ nodes.flatMap (declared tree)) fun _ _ => True := by
  refine (makes_declareAll h hn hfits).bind fun _ g₁ _ _ => ?_
  cases hfits with
  | assignment _ _ _ _ partLhs partRhs =>
  split
  · exact makes_existence hs partLhs partRhs fun l r => ⟨'(', by simp, rfl⟩
  · simp only [flatMap_cons, flatMap_nil, append_nil]
    exact (Makes.patchPart hs partLhs).bind fun _ g₂ _ _ => Makes.patchPart hs partRhs

theorem makes_assignment_statement (hsite : p.site.On n) :
    Makes tree (tree.enclosing n.id) true p.parts (a.patchStatement p) g
      (own tree n.unwrapParens ++ nodes.flatMap (declared tree)) fun _ _ => True := by
  have hdeclare (g : Context) : Makes tree (tree.enclosing n.id) true p.parts a.declareAll g
      (own tree n.unwrapParens) fun _ _ => True := makes_declareAll h hn hfits
  cases hfits with
  | @assignment v lhs rhs _ view viewLhs _ _ partLhs partRhs _ declaresAll =>
  unfold Assignment.patchStatement
  split
  · exact (hdeclare g).bind fun _ g₁ _ _ => makes_existence hs partLhs partRhs fun l r => ⟨'(', by simp, rfl⟩
  · refine Makes.perm ?_ perm_append_comm
    simp only [flatMap_cons, flatMap_nil, append_nil, append_assoc]
    refine (Makes.patchPart hs partLhs).bind fun _ g₁ _ _ => (Makes.patchPart hs partRhs).bind fun _ g₂ _ _ => ?_
    split
    · rename_i hinline
      -- All targets are new, so `let` declares just the names that the assignment owns.
      have hnew : ∀ d ∈ targets lhs, isNew tree d = true := by
        simp only [Assignment.declaresInline, declaresAll, Bool.and_eq_true, all_eq_true] at hinline
        exact hinline.1.2
      have hne : targets lhs ≠ [] := by
        simp only [Assignment.declaresInline, declaresAll, Bool.and_eq_true] at hinline
        simpa using hinline.1.1
      have hassigned : assigned n = targets lhs := by simp [assigned, view, viewLhs]
      rw [(own_of_fits view viewLhs).1, filter_eq_self.2 hnew, ← hassigned]
      intro _ _ g' hdoes
      rw [hsite.whole] at hdoes
      refine ⟨.inline hn (by rwa [hassigned]) (.of_edit (does_step.1 hdoes) fun e he => ?_), trivial⟩
      exact added_of_place he
    · exact hdeclare g₂

end Assignments

/-! ## Blocks -/

/-- A line is followed by nothing but space. -/
theorem exists_lineText {offset : Nat} (hstage : g.stage = .main) (line : String) :
    ∃ space : String, space.toList.all isSpace = true ∧ g.lineText offset line = line ++ space := by
  unfold Context.lineText
  split
  · rename_i indent hindent
    refine ⟨"\n" ++ indent, ?_, String.append_assoc⟩
    obtain ⟨⟨before, after⟩, -, hline⟩ := Option.bind_eq_some_iff.1 hindent
    simp only at hline
    split at hline
    · rename_i hblank
      cases hline
      simp only [String.toList_append, String.toList_ofList, all_append, Bool.and_eq_true]
      refine ⟨by decide, all_eq_true.2 fun c hc => ?_⟩
      simp [isSpace, all_eq_true.1 hblank c hc]
    · cases hline
  · rw [hstage]
    exact ⟨" ", by decide, rfl⟩

section Blocks

variable {R : Nat → Context → Context → Prop} {g' : Context} {α : Type} {a : α}

theorem quiet_when {b : Prop} [Decidable b] {m : Patching PUnit} {P : PUnit → Prop} {f : PUnit → Work α}
    (hm : Quietly NoLet m P) (h : (if b then liftM m >>= f else f ⟨⟩).Does R g a g') :
    ∃ g₁, Quiet NoLet g g₁ ∧ (f ⟨⟩).Does R g₁ a g' := by
  split at h
  · obtain ⟨_, g₁, hdoes, h⟩ := does_bind.1 h
    exact ⟨g₁, (hm.of_eq (does_step.1 hdoes)).1, h⟩
  · exact ⟨g, .refl g, h⟩

/-- When a statement has been patched, the names of its frame go in front of it. -/
theorem makes_patchOne (h : tree.root.Sound tree) {b : Block} {s : Site} {i : Nat} {isLast : Bool} (hs : s.On c)
    (hparts : List.Forall₂ (Shows tree) nodes parts) (hi : nodes[i]? = some c) (hn : n ∈ tree.root.descendants)
    (hk : n.kind = .block) (hc : c ∈ n.children) (hscope : S = tree.enclosing n.id ∨ b.isScopeBody = true) :
    Makes tree S inside parts (b.patchOne s i isLast) g (declared tree c) fun _ _ => True := by
  intro hg _ g' hdoes
  have hroot := Node.descendants_child hn hc
  have henclosing : tree.enclosing c.id = tree.enclosing n.id := by
    rw [tree.enclosing_child h.ids hn hc, if_neg (by rw [hk]; decide)]
  obtain ⟨_, g₀, hbegin, hdoes⟩ := does_bind.1 hdoes
  cases (does_step (m := modify (·.beginDeclarations b.isScopeBody))).1 hbegin
  obtain ⟨_, g₁, hpatch, hdoes⟩ := does_bind.1 hdoes
  obtain ⟨q, hq, hshows⟩ := forall₂_getElem?_left hparts hi
  have hinner : Declares tree (tree.enclosing c.id) (declared tree c) (g.beginDeclarations b.isScopeBody) g₁ :=
    OnPart.of_getElem? (does_patch.1 hpatch) hq c _ true hroot hshows ⟨hg.tree, hg.stage, fun _ => cons_ne_nil _ _⟩
      (Or.inl rfl) (Or.inl rfl)
  obtain ⟨names, g₂, hend, hdoes⟩ := does_bind.1 hdoes
  cases (does_step (m := modifyGet (·.endDeclarations))).1 hend
  obtain ⟨g₃, h₃, hdoes⟩ := quiet_when (Quietly.prepend (by decide)) hdoes
  obtain ⟨_, g₄, hget, hdoes⟩ := does_bind.1 hdoes
  cases (does_step (m := get)).1 hget
  obtain ⟨g₅, h₅, hdoes⟩ := quiet_when (Quietly.insert (by decide)) hdoes
  have hquiet := h₃.trans h₅
  refine ⟨.statement hn hk hc (fun d hd => (of_mem_declared h hroot hd).2) rfl ?_ hinner hquiet ?_, trivial⟩
  · exact hscope.imp (·.trans henclosing.symm) id
  have hevolves : Evolves tree _ g₅ := .of_quiet hquiet
  have hstage : g₅.stage = .main := hevolves.stage_eq.trans (hinner.evolves.stage_eq.trans hg.stage)
  split at hdoes
  · rename_i hne
    obtain ⟨space, hspace, hline⟩ := exists_lineText hstage ("let " ++ ", ".intercalate g₁.endDeclarations.1 ++ ";")
    refine Or.inr ⟨by simpa [Context.endDeclarations] using hne, space, hspace, ?_⟩
    rw [← hline, ← hs.whole]
    have hdoes : Patching.prepend s.whole.start _ g₅ = _ := does_step.1 hdoes
    exact .of_edit hdoes fun e he => added_of_place he
  · rename_i hempty
    exact Or.inl ⟨by simpa [Context.endDeclarations] using hempty, hdoes.2⟩

theorem makes_block_statement (h : tree.root.Sound tree) {b : Block} (hn : n ∈ tree.root.descendants)
    (hfits : Fits tree n nodes (.block b)) (hparts : List.Forall₂ (Shows tree) nodes p.parts)
    (hscope : S = tree.enclosing n.id ∨ Tree.isScopeBody (tree.ancestors n.id).head? = true) :
    Makes tree S inside p.parts (b.patchStatement p) g (nodes.flatMap (declared tree)) fun _ _ => True := by
  cases hfits with
  | block kind isScopeBody =>
  refine Makes.each (T := fun (x : Patcher Construct × Nat) c => n.children[x.2]? = some c ∧ x.1.site.On c) ?_
    fun x c hx g => ?_
  · rw [forall₂_iff_get]
    refine ⟨by simp [hparts.length_eq], fun i h1 h2 => ?_⟩
    have hshows := (forall₂_iff_get.1 hparts).2 i h2 (hparts.length_eq ▸ h2)
    simpa using hshows.site
  · exact makes_patchOne h hx.2 hparts hx.1 hn kind (mem_of_getElem? hx.1) (isScopeBody ▸ hscope)

end Blocks

end Respell.Javascript
