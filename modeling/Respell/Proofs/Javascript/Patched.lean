import Respell.Proofs.Javascript.Bodies
import Respell.Proofs.Javascript.Turns
import Respell.Proofs.Patch.Careful

/-!
What patching declares: all constructs together (`declares_patch`), the whole stage (`run_declares`), and texts
that compile (`exists_stages`).
-/

namespace Respell.Javascript

open Script

variable {tree : Tree} {n c d block : Node} {nodes : List Node} {parts : List (Patcher Construct)} {S : Nat}
  {inside : Bool} {g : Context} {p : Patcher Construct} {k : Construct}

/-! ## Patchers -/

/-- Only assignments and loops own names. -/
theorem own_of_ne (hfits : Fits tree n nodes k) (hassignment : ∀ a, k ≠ .assignment a) (hloop : ∀ l, k ≠ .loop l) :
    own tree n = [] := by
  have hstands := hfits.standsFor
  cases hfits with
  | loop => exact absurd rfl (hloop _)
  | assignment => exact absurd rfl (hassignment _)
  | expression plain view =>
    refine own_eq_nil (fun hk => ?_) fun hk => by rw [hk] at plain; cases plain
    rw [AssignmentView.ofNode?, if_pos hk] at view
    cases view
  | block | conditional | function | returning =>
    rw [Construct.standsFor, beq_iff_eq] at hstands
    exact own_eq_nil (by simp [hstands]) (by simp [hstands])

theorem inner_of_view (h : tree.root.Sound tree) (hn : n ∈ tree.root.descendants) {v : FunctionView}
    (view : FunctionView.ofNode? tree n = some v) (hparts : List.Forall₂ (Shows tree) (functionNodes v) parts) :
    Inner tree n (functionNodes v) parts where
  shows := hparts
  owner := hn
  root := fun _ hc =>
    Node.descendants_trans hn (Node.mem_descendants_of_elements (mem_descendants_of_functionNodes view hc))
  scope := fun _ hc => enclosing_functionNodes h hn view hc

/-- What a construct does, as long as its parts do. -/
theorem makes_patchScript (h : tree.root.Sound tree) (hn : n ∈ tree.root.descendants) (hsite : p.site.On n)
    (hfits : Fits tree n.unwrapParens nodes p.construct) (hparts : List.Forall₂ (Shows tree) nodes p.parts)
    (hwithin : List.Forall₂ (fun c q => c.asked tree q.site.needsValue ⊆ n.unwrapParens.asked tree p.site.needsValue)
      nodes p.parts) :
    Makes tree (tree.enclosing n.id) true p.parts (p.patchScript hooks) g
      (own tree n.unwrapParens ++ nodes.flatMap (declared tree)) fun _ _ => True := by
  have hroot : n.unwrapParens ∈ tree.root.descendants :=
    Node.descendants_trans hn n.unwrapParens_mem
  have hown (ha : ∀ a, p.construct ≠ .assignment a) (hl : ∀ l, p.construct ≠ .loop l) :
      own tree n.unwrapParens ++ nodes.flatMap (declared tree) = nodes.flatMap (declared tree) := by
    rw [own_of_ne hfits ha hl, List.nil_append]
  have hscoped (hf : ∀ f, p.construct ≠ .function f) : Scoped tree (tree.enclosing n.id) nodes p.parts :=
    hfits.scoped h hn (fun hk => (hfits.eq_function hk).elim hf) hparts
  unfold Patcher.patchScript
  simp only [hooks, patchValue, patchStatement]
  generalize p.construct = k at hfits hown hscoped ⊢
  cases k with
  | block b =>
    have hs := hscoped (by simp)
    rw [hown (by simp) (by simp)]
    split
    · exact Makes.patchAll hs hs.shows.length_eq.symm
    · exact makes_block_statement h hroot hfits hparts (Or.inl (tree.enclosing_unwrapParens h hn).symm)
  | conditional cond =>
    have hs := hscoped (by simp)
    rw [hown (by simp) (by simp)]
    split
    · exact makes_conditional_value hs
    · exact makes_conditional_statement hs hfits
  | loop l =>
    split
    · exact Makes.fail
    · exact makes_loop h hn hfits (hscoped (by simp)) hsite
  | function f =>
    rw [hown (by simp) (by simp)]
    have hs : Inner tree n.unwrapParens nodes p.parts := by
      cases hfits with
      | function view => exact inner_of_view h hroot view hparts
    split
    · exact makes_function h hs hfits hwithin
    · exact makes_function_statement h hs hfits hwithin
  | assignment a =>
    split
    · exact makes_assignment_value h hn hfits (hscoped (by simp))
    · exact makes_assignment_statement h hn hfits (hscoped (by simp)) hsite
  | returning value =>
    rw [hown (by simp) (by simp)]
    split
    · exact Makes.fail
    · have hs := hscoped (by simp)
      cases hfits with
      | returning kind partValue =>
        generalize n.unwrapParens.children.head? = o at partValue hs
        cases partValue with
        | none => exact Makes.pure trivial
        | some hv =>
          rw [Option.toList_some, List.flatMap_singleton]
          exact Makes.patchPart hs hv
  | expression respelled =>
    have hs := hscoped (by simp)
    rw [hown (by simp) (by simp), ite_self]
    cases hfits with
    | expression => exact makes_expression hs

theorem declaring_of_does (h : tree.root.Sound tree) {g' : Context} (hphase : p.phase = .prepared)
    (hdoes : (p.patchScript hooks).Does (OnPart (Declaring tree) p.parts) g () g') : Declaring tree p g g' := by
  rintro n S inside hn ⟨nodes, hsite, hfits, hparts, -, -, hwithin⟩ hg hinside hscope
  refine .perm (declared_perm (h.descendant hn).1 hfits).symm ?_
  by_cases hbody : IsBody n p
  · obtain ⟨hk, hvalue⟩ := hbody
    rw [Node.unwrapParens_of_ne (by rw [hk]; decide)] at hfits ⊢
    simp only [Patcher.patchScript, hvalue, Bool.false_eq_true, if_false, hooks, patchStatement] at hdoes
    obtain ⟨b, hb⟩ := hfits.eq_block hk
    rw [hb] at hfits hdoes
    rw [own_of_ne hfits (by simp) (by simp), List.nil_append]
    exact (makes_block_statement h hn hfits hparts (hscope.imp id (·.2)) hg _ _ hdoes).1
  · obtain rfl : inside = true := hinside.resolve_right hbody
    obtain rfl : S = tree.enclosing n.id := hscope.resolve_right fun h => hbody h.1
    exact (makes_patchScript h hn hsite hfits hparts (hwithin hphase) hg _ _ hdoes).1

/-- Whatever is patched declares the names of its node. -/
theorem declares_patch (h : tree.root.Sound tree) (hp : p.Tidy Construct.Placed .prepared)
    (hok : (p.call hooks .patch g).result = .ok ()) : Declaring tree p g (p.call hooks .patch g).context :=
  disciplined.patch_induction (fun _ _ _ hphase _ hdoes => declaring_of_does h hphase hdoes) hp hok

/-! ## The stage -/

/-- The context comes from declaring all names of a block. -/
structure Stages (tree : Tree) (block : Node) (g' : Context) : Prop where
  shown : ∃ p, Shows tree block p
  declares : ∃ g, Quiet NoLet (.ofTree tree .main) g ∧
    Declares tree (tree.enclosing block.id) (declared tree block) g g'

theorem runAll_declares (h : tree.root.Sound tree) (hn : block ∈ tree.root.descendants) (hblock : block.kind = .block)
    (hshows : Shows tree block p) (hfresh : Fresh p) (htidy : p.Tidy Construct.Placed .constructed)
    (hg : Quiet NoLet (.ofTree tree .main) g) :
    Patching.Safe (fun _ => True) (p.runAll hooks) g fun _ g' => Stages tree block g' := by
  have hevolves : Evolves tree _ g := .of_quiet hg
  have htree : g.tree = tree := hevolves.tree_eq
  have hstage : g.stage = .main := hevolves.stage_eq
  have hprepared := prepare_safe p.height block p g (h.descendant hn).1 htree hshows
  refine Patcher.runAll_safe (disciplined.prepare_tidy htidy hprepared) (fun _ _ => trivial) ?_
  rintro q g₁ ⟨hqtidy, hq, hsite, halike⟩
  refine .of_result fun _ hok => ?_
  have hquiet := hg.trans (.of_editor halike.tree halike.stage halike.declarations halike.editor)
  have hbody : IsBody block q := ⟨hblock, by rw [hsite, hfresh.needsValue]⟩
  have hwork : AtWork tree false g₁ := ⟨halike.tree.trans htree, halike.stage.trans hstage, nofun⟩
  exact ⟨⟨q, hq⟩, g₁, hquiet, declares_patch h hqtidy hok block _ false hn hq hwork (Or.inr hbody) (Or.inl rfl)⟩

theorem run_declares (h : tree.root.Sound tree) (hroot : tree.root.kind = .program)
    (hchildren : tree.root.children = [block]) (hblock : block.kind = .block) :
    Patching.Safe (fun _ => True) (run tree) (.ofTree tree .main) fun _ g' => Stages tree block g' := by
  have hmem : block ∈ tree.root.children := by simp [hchildren]
  have hbelow := Node.descendants_child tree.root.self_mem_descendants hmem
  refine run_safe (J := fun g => Quiet NoLet (.ofTree tree .main) g)
    ((respellComments_quiet (P := NoLet) (.ofTree tree .main)).mono fun _ _ h => h.1) (fun _ _ => trivial)
    (fun p g hp hg => ?_) render_safe
  obtain ⟨hshows, hfresh⟩ := shows_patchers h hroot hchildren hblock hp
  exact runAll_declares h hbelow hblock hshows hfresh (tidy_patchers hp) hg

/-! ## Texts -/

/-- The edits that make the output of a tree. -/
def edits (tree : Tree) : Editor := (run tree (.ofTree tree .main)).2.editor

/-- The edits of a text that compiles come from declaring all names of its tree, unless there is no code. -/
theorem exists_stages {text out : String} (h : compile .main text = .ok out) :
    ∃ normalized, Stage.apply .normalize text = .ok normalized ∧ Stage.apply .main normalized = .ok out ∧
      ((Parse.ofText normalized.toList).tree.Blank ∨ ∃ tree block g',
        tree = (Parse.ofText normalized.toList).tree ∧ tree.root.Sound tree ∧ tree.root.kind = .program ∧
        tree.root.children = [block] ∧ block.kind = .block ∧ Stages tree block g' ∧ edits tree = g'.editor) := by
  unfold compile at h
  cases hnormal : Stage.apply .normalize text with
  | error e =>
    rw [hnormal] at h
    cases h
  | ok normalized =>
    rw [hnormal] at h
    simp only [Bind.bind, Except.bind] at h
    refine ⟨normalized, rfl, h, ?_⟩
    obtain ⟨hroot, block, hchildren, hblock⟩ := Parse.root_ofText normalized.toList
    have hsound := @Parse.sound_ofText normalized.toList
    rw [Stage.apply_eq_ok_iff] at h
    generalize Parse.ofText normalized.toList = parsed at *
    obtain ⟨hnil, hok⟩ := h
    refine (hsound hnil).symm.imp id fun hsound => ?_
    have hstages := run_declares hsound hroot hchildren hblock
    exact ⟨parsed.tree, block, _, rfl, hsound, hroot, hchildren, hblock, hstages.of_eq (Prod.ext hok rfl), rfl⟩

/-- A program without code is an empty block. -/
theorem exists_descendants_of_blank (h : tree.Blank) :
    ∃ block, tree.root.descendants = [tree.root, block] ∧ block.kind = .block ∧ block.children = [] := by
  obtain ⟨block, hchildren, hblock, -, hnil⟩ := h.block
  refine ⟨block, ?_, hblock, hnil⟩
  rw [descendants_eq_children, hchildren, List.flatMap_singleton, descendants_eq_children, hnil, List.flatMap_nil]

theorem declared_root (hroot : tree.root.kind = .program) (hchildren : tree.root.children = [block]) :
    declared tree tree.root = declared tree block := by
  have hown : own tree tree.root = [] := own_eq_nil (by rw [hroot]; decide) (by rw [hroot]; decide)
  rw [declared, descendants_eq_children, hchildren, List.flatMap_cons, hown, List.nil_append, List.flatMap_singleton]
  rfl

theorem isName_of_isNew {text : List Char} (h : tree = (Parse.ofText text).tree) (hroot : tree.root.Sound tree) :
    ∀ d ∈ tree.root.descendants, isNew tree d = true → Lexeme.IsName (tree.nodeText d).toList := by
  intro d hd hnew
  simp only [isNew, Bool.and_eq_true, beq_iff_eq] at hnew
  exact (hroot.descendant hd).1.nodeText_isName hnew.1 (h ▸ Parse.scanned_ofText text)

end Respell.Javascript
