import Respell.Proofs.Javascript.Pointing
import Respell.Proofs.Lexing.Comments
import Respell.Proofs.Lexing.Layout
import Respell.Proofs.Normalize.Refinement
import Respell.Proofs.Tree.Lossless

/-!
Diagnostics point into the text they are reported on.

A fault of the grammar is at a token, and each token, layout included, starts and ends between two characters.  A
stage that fails does so at a node, at a token or at the gap between two of them.  So what a diagnostic points at
can always be cut out of the text (`compile_diagnostics`).
-/

namespace Respell

open List Text

variable {text : List Char} {source : String} {e : CompileError}

/-! ## Tokens -/

theorem Span.cuts_empty {o : Nat} (ho : isBoundary text o = true) : (Span.empty o).Cuts text := ⟨Nat.le_refl o, ho, ho⟩

theorem Span.Cuts.exists_slice {s : Span} (h : s.Cuts text) : ∃ inside, slice? text s = some inside := by
  obtain ⟨before, inside, after, hslice⟩ := exists_slice? h.start h.stop h.ordered
  exact ⟨inside, slice?_eq_some.2 ⟨before, after, hslice⟩⟩

/-- Every token of a text starts and ends between two characters. -/
theorem Lexed.cuts_ofText {t : Token} (ht : t ∈ (Lexed.ofText text).tokens) : t.range.Cuts text := by
  have hcode {u : Token} (hu : u ∈ (Lexed.ofText text).tokens) (hs : u.isSignificant = true) := inside_ofText hu hs
  by_cases hs : t.isSignificant = true
  · exact (hcode ht hs).cuts
  obtain ⟨before, after, hsplit⟩ := append_of_mem ht
  have hfits := fits_ofText hsplit
  have hmem (u : Token) (hu : u ∈ before ∨ u ∈ after) : u ∈ (Lexed.ofText text).tokens := by
    rw [hsplit]
    simp only [mem_append, mem_cons]
    tauto
  have hlayout : t.kind = .newline ∨ t.kind = .indent ∨ t.kind = .outdent ∨ t.kind = .eof := by
    rw [Token.isSignificant, Bool.not_eq_true', Bool.not_eq_false] at hs
    generalize t.kind = k at hs ⊢
    unfold Kind.isLayout at hs
    split at hs <;> simp at hs ⊢
  -- Layout stands next to code, whose ends are known, but for the end mark.
  rcases hlayout with hk | hk | hk | hk
  · exact (hfits.newline hk).2.1.inside.cuts
  · obtain ⟨-, u, hu, hsig, heq⟩ := hfits.indent hk
    rw [heq]
    exact Span.cuts_empty (hcode (hmem u (Or.inr (mem_of_head? hu))) hsig).start
  · obtain ⟨-, ⟨last, hlast, heq⟩, -⟩ := hfits.outdent hk
    obtain ⟨hin, hsig⟩ := mem_filter.1 (mem_of_getLast? hlast)
    rw [heq]
    exact Span.cuts_empty (hcode (hmem last (Or.inl hin)) hsig).stop
  · obtain ⟨ts, htokens, hordered, -⟩ := exists_ordered text
    rw [htokens, mem_append, mem_singleton] at ht
    rcases ht with ht | rfl
    · exact absurd hk (hordered.within t ht).1.ne_eof
    · exact Span.cuts_empty (isBoundary_iff.2 ⟨text, [], (append_nil _).symm, rfl⟩)

/-! ## Stages -/

/-- The faults of a text are at its tokens. -/
theorem Parse.cuts_of_mem_errors {d : Diagnostic} (hd : d ∈ (Parse.ofText text).errors) : d.range.Cuts text := by
  obtain ⟨f, hf⟩ := Parse.exists_block text
  obtain ⟨i, t, -, ht, heq⟩ := hf.reported.exists_token (mem_reverse.2 hd)
  rw [heq]
  exact Lexed.cuts_ofText (mem_of_getElem? ht)

/-- The main stage fails at a place in the text, and on an edit only if comments are to move into a body. -/
theorem Javascript.fair_of_run (h : (Parse.ofText text).errors = []) {e : PatchError}
    (he : Stage.main.run (Parse.ofText text).tree = .error e) : e.Fair (Parse.ofText text).tree := by
  obtain ⟨hroot, block, hchildren, hblock⟩ := Parse.root_ofText text
  have hfair := run_fair (Parse.parted_ofText text) (Parse.signs_ofText text) (Parse.sound_ofText h) hroot hchildren
    hblock
  generalize (Parse.ofText text).tree = tree at *
  exact hfair.of_error he

/-- A stage that fails on the tree of a text fails at a place in the text. -/
theorem Stage.run_pointsInto (stage : Stage) (h : (Parse.ofText text).errors = []) {e : PatchError}
    (he : stage.run (Parse.ofText text).tree = .error e) : e.PointsInto text := by
  obtain ⟨f, hf⟩ := Parse.exists_block text
  rw [← hf.tree_eq.1]
  cases stage with
  | normalize =>
    obtain ⟨hint, range, hrange, rfl⟩ := (Normalize.renders_ofText h).of_error he
    exact hrange
  | main => exact (Javascript.fair_of_run h he).pointsInto

/-! ## Errors -/

namespace CompileError

/-- There are diagnostics, all at places in the text of the error. -/
def Located (e : CompileError) : Prop := e.diagnostics ≠ [] ∧ ∀ d ∈ e.diagnostics, d.range.Cuts e.text.toList

variable {stage : Stage} {source : String}

theorem located_parse {ds : List Diagnostic} (hne : ds ≠ []) (hds : ∀ d ∈ ds, d.range.Cuts source.toList) :
    Located ⟨stage, source, .parse ds⟩ := by
  unfold Located diagnostics
  cases stage with
  | normalize => exact ⟨hne, hds⟩
  | main =>
    -- A note changes nothing about the place.
    refine ⟨by simpa using hne, fun d hd => ?_⟩
    obtain ⟨d', hd', rfl⟩ := mem_map.1 hd
    exact hds d' hd'

theorem located_patch {e : PatchError} (he : e.PointsInto source.toList) : Located ⟨stage, source, .patch e⟩ := by
  have hone : Located ⟨stage, source, .parse [e.diagnostic]⟩ := by
    refine located_parse (cons_ne_nil _ _) fun d hd => ?_
    rw [mem_singleton.1 hd]
    exact he
  exact hone

end CompileError

/-- The error of a stage is located in the text that the stage was run on. -/
theorem Stage.located_of_apply {stage : Stage} (h : stage.apply source = .error e) : e.text = source ∧ e.Located := by
  rcases Stage.apply_eq_error_iff.1 h with ⟨hne, rfl⟩ | ⟨hnil, cause, hrun, rfl⟩
  · exact ⟨rfl, CompileError.located_parse hne fun d hd => Parse.cuts_of_mem_errors hd⟩
  · exact ⟨rfl, CompileError.located_patch (Stage.run_pointsInto stage hnil hrun)⟩

/-- An error comes with diagnostics.  Each of them points at a span of the text of the error, with its start no later
than its end and both between two characters, so that the span can be cut out.  That text is the one that was to be
compiled, or what the first stage has made of it. -/
theorem compile_diagnostics (last : Stage) (source : String) (e : CompileError) (h : compile last source = .error e) :
    (e.text = source ∨ Stage.apply .normalize source = .ok e.text) ∧ e.diagnostics ≠ [] ∧
      ∀ d ∈ e.diagnostics, d.range.start ≤ d.range.stop ∧ d.range.stop ≤ byteLength e.text.toList ∧
        isBoundary e.text.toList d.range.start = true ∧ isBoundary e.text.toList d.range.stop = true ∧
        ∃ inside, slice? e.text.toList d.range = some inside := by
  have hlocated : (e.text = source ∨ Stage.apply .normalize source = .ok e.text) ∧ e.Located := by
    rcases apply_of_compile h with h | ⟨normalized, hnormalized, h⟩
    · exact (Stage.located_of_apply h).imp_left Or.inl
    · obtain ⟨rfl, hlocated⟩ := Stage.located_of_apply h
      exact ⟨Or.inr hnormalized, hlocated⟩
  obtain ⟨htext, hsome, hcuts⟩ := hlocated
  refine ⟨htext, hsome, fun d hd => ?_⟩
  have hd := hcuts d hd
  exact ⟨hd.ordered, le_byteLength_of_isBoundary hd.stop, hd.start, hd.stop, hd.exists_slice⟩

/-- A loop that is used as a value is reported by the second stage, at its place in the text of that stage. -/
theorem compile_diagnostics_loop_as_value :
    let source := "x = \"é\" if y\na = for z in x then z"
    ∃ e, compile .main source = .error e ∧ e.text ≠ source ∧ e.diagnostics.map (·.range) = [⟨23, 40⟩] ∧
      (e.text = source ∨ Stage.apply .normalize source = .ok e.text) ∧ e.diagnostics ≠ [] ∧
      ∀ d ∈ e.diagnostics, d.range.start ≤ d.range.stop ∧ d.range.stop ≤ byteLength e.text.toList ∧
        isBoundary e.text.toList d.range.start = true ∧ isBoundary e.text.toList d.range.stop = true ∧
        ∃ inside, slice? e.text.toList d.range = some inside := by
  intro source
  have hnormalized : Stage.apply .normalize source = .ok "if y then x = \"é\"\na = for z in x then z" :=
    eq_ok_of_toOption (by decide +kernel)
  have hfails : (match Stage.apply .main "if y then x = \"é\"\na = for z in x then z" with
    | .error e => decide (e.text ≠ source) && decide (e.diagnostics.map (·.range) = [⟨23, 40⟩])
    | .ok _ => false) = true := by decide +kernel
  obtain ⟨e, h, htext, hranges⟩ : ∃ e, compile .main source = .error e ∧ e.text ≠ source ∧
      e.diagnostics.map (·.range) = [⟨23, 40⟩] := by
    rw [compile, hnormalized]
    simp only [bind, Except.bind]
    generalize Stage.apply .main _ = result at hfails ⊢
    cases result with
    | ok out => cases hfails
    | error e =>
      simp only [Bool.and_eq_true, decide_eq_true_eq] at hfails
      exact ⟨e, rfl, hfails⟩
  exact ⟨e, h, htext, hranges, compile_diagnostics .main source e h⟩

/-! ## Edits that conflict -/

/-- The edit that a stage failed on. -/
def CompileError.edit? (e : CompileError) : Option EditError :=
  match e.failure with
  | .patch (.edit cause) => some cause
  | _ => none

/-- On a text without faults edits conflict in the main stage alone, and what is refused there is to take out comments
that stand behind an indented body, in front of the next code. -/
theorem Stage.conflict_moves_comments (stage : Stage) {text : List Char} (h : (Parse.ofText text).errors = [])
    {cause : EditError} (hrun : stage.run (Parse.ofText text).tree = .error (.edit cause)) :
    stage = .main ∧ cause.MovesComments (Parse.ofText text).tree := by
  cases stage with
  | normalize =>
    obtain ⟨hint, range, -, heq⟩ := (Normalize.renders_ofText h).of_error hrun
    cases heq
  | main => exact ⟨rfl, (Javascript.fair_of_run h hrun).edit cause rfl⟩

theorem Stage.conflict_moves_comments_branch :
    let tree := (Parse.ofText "x = if a\n  ->\n    b # c\nelse\n  d\n".toList).tree
    let cause := EditError.overlapping ⟨19, 31⟩ ⟨19, 23⟩
    Stage.main.run tree = .error (.edit cause) ∧ cause.MovesComments tree := by
  intro tree cause
  have hrun : Stage.main.run tree = .error (.edit cause) := by
    have hcause : (match Stage.main.run tree with
      | .error e => decide (e = .edit cause)
      | .ok _ => false) = true := by decide +kernel
    generalize Stage.main.run tree = result at hcause ⊢
    cases result with
    | ok out => cases hcause
    | error e => rw [of_decide_eq_true hcause]
  exact ⟨hrun, (Stage.conflict_moves_comments .main (by decide +kernel) hrun).2⟩

/-- A comment behind the body of a function moves into its braces; where that body ends a branch of a value,
the text between the branches has been replaced already. -/
theorem Javascript.moved_comment_conflicts :
    (Parse.ofText "x = if a\n  ->\n    b # c\nelse\n  d\n".toList).errors = [] ∧
      (match Stage.apply .main "x = if a\n  ->\n    b # c\nelse\n  d\n" with
        | .ok _ => none
        | .error e => e.edit?) = some (.overlapping ⟨19, 31⟩ ⟨19, 23⟩) := by
  decide +kernel

/-- A comment that stands in what a construct writes anew is lost, here between a condition and its branch. -/
theorem Javascript.comment_lost_in_value :
    let text := "x = if a # c\n  b\nelse\n  d\n"
    (Parse.ofText text.toList).tree.comments.map (·.javascript text.toList) = ["// c"] ∧
      (compile .main text).toOption = some "let x = a ? b : d;\n" ∧
      ¬ "// c".toList <:+: "let x = a ? b : d;\n".toList := by
  decide +kernel

end Respell
