import Respell.Proofs.Compile
import Respell.Proofs.Javascript.Binding
import Respell.Proofs.Javascript.Turns
import Respell.Proofs.Patch.Careful
import Respell.Proofs.Patch.Frames

/-!
Functions that return.

While JavaScript is emitted, functions enter and leave frames and a `return` marks them (`framing`), so each function
learns whether there is a `return` of its own in it.  Only for that is a function without braces turned down.
-/

namespace Respell.Javascript

open Script

/-! ## Hooks -/

/-- Functions and `return`s stand for nodes of these kinds, and nothing else does. -/
@[mk_iff]
structure Construct.Suits (kind : Kind) (k : Construct) : Prop where
  function : kind = .function ↔ ∃ f, k = .function f
  returning : kind = .returnStmt ↔ ∃ value, k = .returning value

namespace Construct.Suits

variable {kind : Kind} {k : Construct}

theorem returnLast (h : k.Suits kind) : k.returnLast.Suits kind := by
  obtain ⟨hf, hr⟩ := h
  cases k with
  | block | conditional => exact ⟨by simpa [Construct.returnLast] using hf, by simpa [Construct.returnLast] using hr⟩
  | loop | function | assignment | returning | expression => exact ⟨hf, hr⟩

theorem of_function (f : Function) : (Construct.function f).Suits .function := ⟨by simp, by simp⟩

end Construct.Suits

/-- Anything but that a function without braces has a `return` in it. -/
def OtherThanReturn (e : PatchError) : Prop := ∀ range, e ≠ .violation .conciseReturn range

theorem framing : hooks.Framing Construct.Suits OtherThanReturn where
  enters p _ hp := by
    obtain ⟨f, hf⟩ := hp.function.1 rfl
    refine ⟨pure (), f.openBody p, ?_, fun _ => trivial, fun g => steady_iff.2 ?_⟩
    · show prepare p = _
      rw [prepare, hf]
      rfl
    · refine Function.prepares_openBody ?_ ?_ fun _ _ => ?_
      · exact fun _ _ => Construct.Suits.returnLast
      · exact fun _ => rfl
      · exact Construct.Suits.of_function _
  leaves p _ hp := by
    obtain ⟨f, hf⟩ := hp.function.1 rfl
    refine ⟨pure (), fun hasReturn => if hasReturn && f.isConcise then .fail (.violation .conciseReturn p.site.content)
      else pure (), ?_, fun _ => trivial, fun b g => ?_⟩
    · show finish p = _
      rw [finish, hf]
      rfl
    · dsimp only
      split
      case isTrue h => exact Or.inr ⟨(Bool.and_eq_true_iff.1 h).1, rfl⟩
      case isFalse => trivial
  marks p _ hp := by
    obtain ⟨value, hvalue⟩ := hp.returning.1 rfl
    refine ⟨pure (), value.forM fun v => Script.demandValue v.place, ?_, fun _ => trivial,
      fun g => steady_iff.2 (.option_forM fun v => .demandValue _)⟩
    show prepare p = _
    rw [prepare, hvalue]
    rfl
  prepare p hfun hret hp g := by
    refine steady_iff.2 (prepares_prepare ?_ ?_ (fun b hb _ => ?_) ?_ ?_)
    · exact fun _ _ => Construct.Suits.returnLast
    · exact fun _ => rfl
    · rw [hb] at hp
      exact ⟨by simpa using hp.function, by simpa using hp.returning⟩
    · exact fun f hf => absurd (hp.function.2 ⟨f, hf⟩) hfun
    · exact fun value hvalue => absurd (hp.returning.2 ⟨value, hvalue⟩) hret
  finish p hfun hp g := by
    show (finish p).Steady _ _ _ g
    unfold finish
    split
    case h_1 f hk => exact absurd (hp.function.2 ⟨f, hk⟩) hfun
    case h_2 => trivial
  refuses kind range range' h := by cases h

/-! ## Nodes -/

variable {tree : Tree} {n c : Node} {nodes : List Node} {k : Construct} {p : Patcher Construct}

theorem Fits.suits (h : Fits tree n nodes k) : k.Suits n.kind := by
  have hstands := h.standsFor
  cases h with
  | expression plain view kind =>
    have hfun : n.kind ≠ .function := fun hk => by simp [isPlain, hk] at plain
    simp [Construct.suits_iff, hfun, kind]
  | assignment view =>
    obtain ⟨-, -, hk | hk⟩ := assignment_view view <;> simp [Construct.suits_iff, hk]
  | block | conditional | loop | function | returning =>
    rw [Construct.standsFor, beq_iff_eq] at hstands
    simp [Construct.suits_iff, hstands]

theorem Shows.fitting (h : Shows tree n p) : p.Fitting Construct.Suits := by
  induction hheight : p.height using Nat.strongRecOn generalizing n p with
  | ind _ ih =>
    obtain ⟨nodes, hsite, hfits, hparts, -, -, -⟩ := h
    refine .intro (hsite.kind ▸ hfits.suits) fun q hq => ?_
    obtain ⟨i, hi⟩ := List.getElem?_of_mem hq
    obtain ⟨c, -, hc⟩ := forall₂_getElem? hparts hi
    exact ih q.height (hheight ▸ Patcher.height_lt_of_mem hq) hc rfl

/-- What a node stands in, its parts stand in, unless it is a function. -/
theorem Fits.enclosing_part (h : tree.root.Sound tree) (hn : n ∈ tree.root.descendants) (hfits : Fits tree n nodes k)
    (hc : c ∈ nodes) : tree.enclosing c.id = if n.kind = .function then n.id else tree.enclosing n.id := by
  by_cases hk : n.kind = .function
  · obtain ⟨f, rfl⟩ := hfits.suits.function.1 hk
    cases hfits with
    | function view => rw [if_pos hk, enclosing_functionNodes h hn view hc]
  · exact tree.enclosing_child h.ids hn (((hfits.children_perm (h.descendant hn).1 hk).mem_iff).2 hc)

/-- The patchers below show nodes, and the function nearest around one is that of its node. -/
theorem Shows.follow? (hroot : tree.root.Sound tree) (hn : n ∈ tree.root.descendants) (h : Shows tree n p)
    {path : List Nat} {q : Patcher Construct} (hq : p.follow? path = some q) :
    q.site.node ∈ tree.root.descendants ∧ tree.enclosing q.site.node.id =
      ((p.around? path).map (·.site.node.id)).getD (tree.enclosing p.site.node.id) := by
  have hnode := Node.descendants_trans hn n.unwrapParens_mem
  induction path generalizing n p with
  | nil =>
    cases hq
    rw [h.site.node]
    exact ⟨hnode, rfl⟩
  | cons i path ih =>
    obtain ⟨nodes, hsite, hfits, hparts, -, -, -⟩ := h
    rw [Patcher.follow?_cons] at hq
    obtain ⟨p₁, hp₁, hq⟩ := Option.bind_eq_some_iff.1 hq
    obtain ⟨c, hc, hshows⟩ := forall₂_getElem? hparts hp₁
    have hmem := Node.descendants_trans hnode (Node.mem_descendants_of_elements
      (hfits.mem_descendants (hroot.descendant hnode).1 (List.mem_of_getElem? hc)))
    obtain ⟨hqmem, hq⟩ := ih hmem hshows hq (Node.descendants_trans hmem c.unwrapParens_mem)
    refine ⟨hqmem, hq.trans ?_⟩
    rw [hshows.site.node, tree.enclosing_unwrapParens hroot hmem,
      hfits.enclosing_part hroot hnode (List.mem_of_getElem? hc), ← hsite.node, Patcher.around?_cons hp₁]
    cases p₁.around? path with
    | some f => rfl
    | none =>
      show (if p.site.kind = .function then p.site.node.id else _) =
        ((if p.site.kind = .function then some p else none).map (·.site.node.id)).getD _
      split <;> rfl

/-- A `return` below a function with no other between stands in this function. -/
theorem Shows.exists_return (hroot : tree.root.Sound tree) (hn : n ∈ tree.root.descendants) (h : Shows tree n p)
    {place : List Nat} {f : Patcher Construct} (hf : p.follow? place = some f) (hreturn : p.HasReturn (some place)) :
    ∃ r ∈ tree.root.descendants, r.kind = .returnStmt ∧ tree.enclosing r.id = f.site.node.id := by
  obtain ⟨path, q, hq, hk, hnearest⟩ := hreturn
  obtain ⟨hmem, henclosing⟩ := h.follow? hroot hn hq
  refine ⟨_, hmem, hk, henclosing.trans ?_⟩
  rw [Patcher.around?, hnearest, Option.bind_some, hf]
  rfl

/-! ## The stage -/

/-- A run fails for a `return` in a function without braces only if there is one. -/
theorem runAll_blames (hp : p.Fitting Construct.Suits) (htidy : p.Tidy Construct.Placed .constructed) (g : Context) :
    Patching.Safe (p.Blames OtherThanReturn) (p.runAll hooks) g fun _ _ => True := by
  refine Patcher.runAll_safe (disciplined.prepare_tidy htidy (framing.prepare_safe hp g)) (fun _ => id) ?_
  rintro q g' ⟨hq, -⟩
  have hanswers := disciplined.answers_patch q.height hq (Nat.le_refl _) g'
  change Walk.patch.Answers Construct.Placed q (q.call hooks .patch g') _ at hanswers
  unfold Outcome.Safe
  unfold Walk.Answers at hanswers
  generalize q.call hooks .patch g' = o at hanswers
  obtain ⟨result, q', g''⟩ := o
  cases result with
  | error e => exact Or.inl (hanswers.1.conciseReturn (by decide))
  | ok u => trivial

theorem otherThanReturn_of_not_isViolation {e : PatchError} (h : ¬ e.IsViolation) : OtherThanReturn e := by
  rintro range rfl
  exact h trivial

/-- The stage fails for a `return` only because of its patchers. -/
theorem run_blames (hfitting : ∀ p, patchers tree (.ofTree tree) = .ok p → p.Fitting Construct.Suits) :
    Patching.Safe (fun e => OtherThanReturn e ∨ ∃ p, patchers tree (.ofTree tree) = .ok p ∧ p.Blames OtherThanReturn e)
      (run tree) (.ofTree tree .main) fun _ _ => True := by
  have hmild {α : Type} {m : Patching α} (h : m.Mild) (g : Context) := (h g).weaken fun e he =>
    (Or.inl (otherThanReturn_of_not_isViolation he) : OtherThanReturn e ∨
      ∃ p, patchers tree (.ofTree tree) = .ok p ∧ p.Blames OtherThanReturn e)
  have hmade := made_patchers tree (.ofTree tree)
  refine run_safe (hmild mild_respellComments _) (fun e he => ?_) (fun p g hp _ => ?_) fun g _ => hmild (.rendered _) g
  · rw [he] at hmade
    exact Or.inl (otherThanReturn_of_not_isViolation hmade)
  · exact (runAll_blames (hfitting p hp) (tidy_patchers hp) g).weaken fun e he => Or.inr ⟨p, hp, he⟩

/-! ## Texts -/

section Text

variable {text : List Char} (herrors : (Parse.ofText text).errors = [])
  (hp : patchers (Parse.ofText text).tree (.ofTree (Parse.ofText text).tree) = .ok p)
include herrors hp

/-- The patchers of a text show its block, or there is no code. -/
theorem shows_or_empty :
    ((Parse.ofText text).tree.root.Sound (Parse.ofText text).tree ∧
      ∃ block ∈ (Parse.ofText text).tree.root.descendants, Shows (Parse.ofText text).tree block p) ∨
    (p.site.kind = .block ∧ (∃ b, p.construct = .block b) ∧ p.parts = []) := by
  obtain ⟨hroot, block, hchildren, hblock⟩ := Parse.root_ofText text
  have hsound := Parse.sound_ofText herrors
  generalize (Parse.ofText text).tree = tree at *
  rcases hsound with h | h
  · left
    have hmem : block ∈ tree.root.descendants := Node.mem_descendants_of_child (by simp [hchildren])
    exact ⟨h, block, hmem, (shows_patchers h hroot hchildren hblock hp).1⟩
  · right
    obtain ⟨block', hchildren', -, -, hnil⟩ := h.block
    cases hchildren.symm.trans hchildren'
    obtain ⟨isScopeBody, hfold⟩ := fold_empty hblock hnil (.ofTree tree)
    rw [patchers_eq hroot hchildren, hfold] at hp
    cases hp
    refine ⟨?_, ⟨_, rfl⟩, rfl⟩
    show block.unwrapParens.kind = .block
    rw [Node.unwrapParens_of_ne (by rw [hblock]; decide), hblock]

theorem fitting_patchers : p.Fitting Construct.Suits := by
  rcases shows_or_empty herrors hp with ⟨-, block, -, hshows⟩ | ⟨hk, ⟨b, hb⟩, hparts⟩
  · exact hshows.fitting
  · refine .intro ?_ (by simp [hparts])
    rw [hk, hb]
    simp [Construct.suits_iff]

/-- A function that is turned down has a `return` of its own. -/
theorem exists_of_blames (range : Span) (h : p.Blames OtherThanReturn (.violation .conciseReturn range)) :
    ∃ f ∈ (Parse.ofText text).tree.root.descendants, f.kind = .function ∧ f.range = range ∧
      ∃ r ∈ (Parse.ofText text).tree.root.descendants, r.kind = .returnStmt ∧
        (Parse.ofText text).tree.enclosing r.id = f.id := by
  rcases h with h | ⟨path, f, hfollow, hk, hreturn, heq⟩
  · exact absurd rfl (h range)
  · rcases shows_or_empty herrors hp with ⟨hroot, block, hn, hshows⟩ | ⟨hblock, -, hparts⟩
    · cases heq
      exact ⟨f.site.node, (hshows.follow? hroot hn hfollow).1, hk, rfl, hshows.exists_return hroot hn hfollow hreturn⟩
    · cases path with
      | nil =>
        cases hfollow
        cases hk.symm.trans hblock
      | cons i path =>
        rw [Patcher.follow?_cons, hparts] at hfollow
        cases hfollow

end Text

theorem run_of_apply_error {text : String} {e : PatchError}
    (h : Stage.apply .main text = .error ⟨.main, text, .patch e⟩) :
    (Parse.ofText text.toList).errors = [] ∧
      (run (Parse.ofText text.toList).tree (.ofTree (Parse.ofText text.toList).tree .main)).1 = .error e := by
  rcases Stage.apply_eq_error_iff.1 h with ⟨-, heq⟩ | ⟨hnil, cause, hrun, heq⟩
  · cases heq
  · cases heq
    exact ⟨hnil, hrun⟩

theorem exists_return_of_apply {text : String} {range : Span}
    (h : Stage.apply .main text = .error ⟨.main, text, .patch (.violation .conciseReturn range)⟩) :
    ∃ f ∈ (Parse.ofText text.toList).tree.root.descendants, f.kind = .function ∧ f.range = range ∧
      ∃ r ∈ (Parse.ofText text.toList).tree.root.descendants, r.kind = .returnStmt ∧
        (Parse.ofText text.toList).tree.enclosing r.id = f.id := by
  obtain ⟨herrors, hrun⟩ := run_of_apply_error h
  have hfitting (p : Patcher Construct) := fitting_patchers (p := p) herrors
  have hblames (p : Patcher Construct) := exists_of_blames (p := p) herrors
  generalize (Parse.ofText text.toList).tree = tree at *
  rcases (run_blames hfitting).of_error hrun with hother | ⟨p, hp, hp'⟩
  · exact absurd rfl (hother range)
  · exact hblames p hp range hp'

/-- Frames report the `return`s of their functions.  Whatever the constructs are, as long as functions enter and leave
frames and a `return` marks them, no frame is left in the end, and the frame that a function leaves is marked if and
only if this function is the nearest around some `return`.  The constructs of JavaScript are such; so the stage turns
down a function only for a `return` that stands in it and in no other function inside. -/
theorem frames_report_returns (text : String) :
    let tree := (Parse.ofText text.toList).tree
    (∀ (κ : Type) (h : Hooks Context κ) (fits : Kind → κ → Prop) (E : PatchError → Prop) (p : Patcher κ) (g : Context),
      h.Framing fits E → p.Fitting fits → g.functions = [] → (p.call h .prepare g).result = .ok () →
        p.ReportsReturns h g) ∧
    hooks.Framing Construct.Suits OtherThanReturn ∧
    ((Parse.ofText text.toList).errors = [] →
      ∀ p, patchers tree (.ofTree tree) = .ok p → p.Fitting Construct.Suits) ∧
    ∀ range, Stage.apply .main text = .error ⟨.main, text, .patch (.violation .conciseReturn range)⟩ →
      ∃ f ∈ tree.root.descendants, f.kind = .function ∧ f.range = range ∧
        ∃ r ∈ tree.root.descendants, r.kind = .returnStmt ∧ tree.enclosing r.id = f.id := by
  intro tree
  exact ⟨fun κ h fits E p g hf hp hg hok => hf.reportsReturns hp hg hok, framing,
    fun herrors p => fitting_patchers herrors, fun range => exists_return_of_apply⟩

/-- Three functions, two of them with a `return` of their own; and a function that is turned down. -/
theorem frames_report_returns_nested :
    let text := "f = (x = -> return 1) ->\n  g = => 2\n  if g\n    return g\n  3"
    let tree := (Parse.ofText text.toList).tree
    let refused := "f = => a + (if x then return b)"
    let tree' := (Parse.ofText refused.toList).tree
    (∃ p, patchers tree (.ofTree tree) = .ok p ∧ (p.call hooks .prepare (.ofTree tree .main)).result = .ok () ∧
      (p.log hooks .prepare (.ofTree tree .main)).filterMap (fun e =>
        if e.2.patcher.site.kind = .function then some (e.1, e.2.exitValue hooks) else none) =
          [([0, 1, 0], true), ([0, 1, 1, 0, 1], false), ([0, 1], true)] ∧
      p.ReportsReturns hooks (.ofTree tree .main)) ∧
    Stage.apply .main refused = .error ⟨.main, refused, .patch (.violation .conciseReturn ⟨4, 31⟩)⟩ ∧
    ∃ f ∈ tree'.root.descendants, f.kind = .function ∧ f.range = ⟨4, 31⟩ ∧
      ∃ r ∈ tree'.root.descendants, r.kind = .returnStmt ∧ tree'.enclosing r.id = f.id := by
  intro text tree refused tree'
  have hparsed : (Parse.ofText text.toList).errors = [] := by decide +kernel
  have hexits : ((patchers tree (.ofTree tree)).toOption.map fun p =>
      ((p.call hooks .prepare (.ofTree tree .main)).result,
        (p.log hooks .prepare (.ofTree tree .main)).filterMap fun e =>
          if e.2.patcher.site.kind = .function then some (e.1, e.2.exitValue hooks) else none)) =
      some (.ok (), [([0, 1, 0], true), ([0, 1, 1, 0, 1], false), ([0, 1], true)]) := by decide +kernel
  have hrefused : (Parse.ofText refused.toList).errors = [] ∧
      Stage.run .main tree' = .error (.violation .conciseReturn ⟨4, 31⟩) := by decide +kernel
  have happly : Stage.apply .main refused = .error ⟨.main, refused, .patch (.violation .conciseReturn ⟨4, 31⟩)⟩ := by
    simp only [Stage.apply, hrefused.1, List.isEmpty_nil, if_true]
    rw [hrefused.2]
  obtain ⟨hreports, hframing, hfitting, -⟩ := frames_report_returns text
  refine ⟨?_, happly, (frames_report_returns refused).2.2.2 _ happly⟩
  obtain ⟨p, hp, hcheck⟩ := Option.map_eq_some_iff.1 hexits
  obtain ⟨hok, hexits⟩ := Prod.ext_iff.1 hcheck
  have hpatchers := eq_ok_of_toOption hp
  exact ⟨p, hpatchers, hok, hexits, hreports _ _ _ _ p _ hframing (hfitting hparsed p hpatchers) rfl hok⟩

end Respell.Javascript
