import Respell.Proofs.Javascript.Patched
import Respell.Proofs.Javascript.Pointing
import Respell.Proofs.Javascript.Turns
import Respell.Proofs.Patch.Answers

/-!
The main stage translates all that JavaScript does not have.

Whatever is patched in the stage has no such token left in its text, whether or not the stage comes to its end
(`clears_answered`), and if it does, the whole text has none (`run_fair`).
-/

namespace Respell

/-- What is replaced is not copied. -/
theorem Editor.Replaces.covers {e : Editor} {range : Span} (h : e.Replaces range) {o : Nat} (hstart : range.start ≤ o)
    (hstop : o < range.stop) : e.reading.covers o = true := by
  obtain ⟨a, ha, hr⟩ := h
  obtain ⟨hle, hge⟩ := Span.contains_iff.1 hr
  refine List.any_eq_true.2 ⟨a, ha, ?_⟩
  simp only [Bool.and_eq_true, decide_eq_true_eq]
  omega

namespace Javascript

variable {tree : Tree} {n : Node} {p : Patcher Construct}

/-! ## Preparing -/

/-- Preparing a construct calls none of its parts. -/
theorem hooks_quiet : hooks.Quiet := by
  intro callee logOf p q g
  have hprepare : (prepare p).Prepares (fun (_ : Unit) _ => True) (fun _ => True) (fun _ _ => True) () g :=
    prepares_prepare (fun _ _ => id) (fun _ => trivial) (fun _ _ _ => trivial)
      (fun _ _ => ⟨fun _ => trivial, fun _ _ => trivial⟩) fun _ _ _ => trivial
  refine ⟨hprepare.log_eq_nil q, ?_⟩
  show (finish p).log callee logOf q g = []
  unfold finish
  split
  · refine (Script.log_bind (s := modifyGet Context.exitFunction)).trans ?_
    show (if _ then _ else _ : Work Unit).log callee logOf q _ = []
    split <;> rfl
  · rfl

/-! ## The stage -/

/-- The answers to all calls of the stage. -/
def calls (tree : Tree) : Patcher.Log Context Construct :=
  match respellComments (.ofTree tree .main) with
  | (.ok (), g) =>
    match patchers tree g.scopes with
    | .ok p => p.logAll hooks g
    | .error _ => []
  | (.error _, _) => []

section Stage

variable (h : tree.root.Sound tree) (hsigns : tree.root.Signs tree) (hparted : tree.Parted)
  (hroot : tree.root.kind = .program) {block : Node} (hchildren : tree.root.children = [block])
  (hblock : block.kind = .block)
include h hsigns hparted hroot hchildren hblock

/-- Whatever was patched in the stage has its node cleared, however the stage ends. -/
theorem clears_answered :
    ∀ e ∈ calls tree, e.2.call ≠ .prepare → e.2.outcome.result = .ok () →
      ∃ n : Node, n.Sound tree ∧ e.2.patcher.site.On n ∧
        ∀ r ∈ n.sourceOnly tree, e.2.outcome.context.editor.Replaces r := by
  intro e he hcall hok
  have hcommented := (respellComments_safe (E := fun _ => True) hparted).and
    (respellComments_scopes (.ofTree tree .main))
  unfold calls at he
  unfold Patching.Safe at hcommented
  generalize respellComments (.ofTree tree .main) = r at he hcommented
  obtain ⟨result, g⟩ := r
  cases result with
  | error e => cases he
  | ok u =>
    cases hp : patchers tree g.scopes with
    | error e =>
      simp only [hp] at he
      cases he
    | ok p =>
      simp only [hp] at he
      have hscopes : g.scopes = .ofTree tree := hcommented.2
      have hmem : block ∈ tree.root.children := by simp [hchildren]
      obtain ⟨hshows, -⟩ := shows_patchers h hroot hchildren hblock (hscopes ▸ hp)
      have hsound := h.child hmem
      have hprepared := (prepare_safe p.height block p g hsound hcommented.1.fine.tree hshows).mono
        fun _ q g' (hq : _ ∧ _ ∧ g.Alike g') => show Placed tree block q ∧ tree.Asks block g' from
          ⟨⟨hsigns, hsound, Node.mem_descendants_of_child hmem, hq.1⟩, hcommented.1.asks hparted hsound hq.2.2⟩
      obtain ⟨n, q, g', hq, hg', heq⟩ := Patcher.exists_of_mem_logAll hooks_quiet
        (fun _ _ h => h.violation) (fun _ _ h _ => h.careful) hprepared e he hcall
      rw [heq] at hok ⊢
      replace hok : (q.call hooks .patch g').result = .ok () := hok
      -- A patcher that was patched before would have turned the call away.
      have hphase : q.phase = .prepared := by
        rw [Patcher.call_eq] at hok
        split at hok
        case isTrue hw => exact hw.1
        case isFalse => cases hok
      have hn := hq.resolve_right fun hpatched => by cases hphase.symm.trans hpatched.1
      have hsafe := Placed.call_safe hq hg'
      rw [Outcome.Safe, hok] at hsafe
      exact ⟨n, hn.sound, hn.shows.site, hsafe.replaces⟩

/-- A token in the text of a patcher that was patched is replaced. -/
theorem replaces_answered {i : Nat} {t : Token}
    (ht : tree.token? i = some t) (hs : t.isSourceOnly tree.text = true)
    {e : List Nat × Patcher.Answer Context Construct} (he : e ∈ calls tree) (hcall : e.2.call ≠ .prepare)
    (hok : e.2.outcome.result = .ok ())
    (hcontains : e.2.patcher.site.content.contains t.range = true) :
    e.2.outcome.context.editor.Replaces t.range := by
  obtain ⟨n, hn, hsite, hclears⟩ := clears_answered h hsigns hparted hroot hchildren hblock e he hcall hok
  have hrange : n.range.contains t.range = true := by
    obtain ⟨-, -, hstart, hstop⟩ := hn.unwrapParens
    rw [hsite.content, Span.contains_iff] at hcontains
    exact Span.contains_iff.2 ⟨Nat.le_trans hstart hcontains.1, Nat.le_trans hcontains.2 hstop⟩
  exact hclears t.range ⟨i, hn.mem_of_within ht (Token.isSignificant_of_isSourceOnly hs) hrange, t, ht, hs, rfl⟩

/-- If the stage comes to its end, every such token of the tree is replaced. -/
theorem replaces_edits {out : String} (hrun : (run tree (.ofTree tree .main)).1 = .ok out) {i : Nat} {t : Token}
    (hi : i ∈ tree.root.elements.tokens) (ht : tree.token? i = some t) (hs : t.isSourceOnly tree.text = true) :
    (edits tree).Replaces t.range := by
  have hfair := run_fair hparted hsigns (Or.inl h) hroot hchildren hblock
  exact (hfair.of_eq (Prod.ext hrun rfl)).replaces h t.range ⟨i, hi, t, ht, hs, rfl⟩

end Stage

/-! ## Texts -/

theorem run_of_apply {text out : String} (h : Stage.apply .main text = .ok out) :
    (Parse.ofText text.toList).errors = [] ∧
      (run (Parse.ofText text.toList).tree (.ofTree (Parse.ofText text.toList).tree .main)).1 = .ok out := by
  rw [Stage.apply_eq_ok_iff] at h
  generalize Parse.ofText text.toList = parsed at *
  exact h

/-- No token ends where the node starts. -/
def Detached (tree : Tree) (n : Node) : Prop := ∀ t ∈ tree.tokens, t.isSignificant = true → t.range.stop ≠ n.range.start

instance (tree : Tree) (n : Node) : Decidable (Detached tree n) :=
  inferInstanceAs (Decidable (∀ t ∈ tree.tokens, t.isSignificant = true → t.range.stop ≠ n.range.start))

/-- Text that is put in where a node starts stands in front of what was put in before, unless there is a token in front
of the node that touches it. -/
theorem order_of_detached {text out : String} (h : Stage.apply .main text = .ok out) {n : Node}
    (hn : Detached (Parse.ofText text.toList).tree n) :
    ∀ i ∈ (edits (Parse.ofText text.toList).tree).inserts, i.offset = n.range.start →
      i.order < 0 ∨ i.text = "function" ∨ i.text = "let " := by
  obtain ⟨herrors, hrun⟩ := run_of_apply h
  obtain ⟨hroot, block, hchildren, hblock⟩ := Parse.root_ofText text.toList
  have hsigns := Parse.signs_ofText text.toList
  have hparted := Parse.parted_ofText text.toList
  have hsound := Parse.sound_ofText herrors
  generalize (Parse.ofText text.toList).tree = tree at *
  have hfair := run_fair hparted hsigns hsound hroot hchildren hblock
  intro i hi hoffset
  obtain hfront | hfunction | hlet | ⟨t, ht, hs, hstop⟩ := (hfair.of_eq (Prod.ext hrun rfl)).fine.settled i hi
  · exact Or.inl hfront
  · exact Or.inr (Or.inl hfunction)
  · exact Or.inr (Or.inr hlet)
  · exact absurd (hstop.trans hoffset) (hn t ht hs)

/-- A text in which a significant token stands has code, and the token is in its tree. -/
theorem exists_index {text : List Char} (herrors : (Parse.ofText text).errors = []) {t : Token}
    (ht : t ∈ (Parse.ofText text).tree.tokens) (hsignificant : t.isSignificant = true) :
    (Parse.ofText text).tree.root.Sound (Parse.ofText text).tree ∧
      ∃ i ∈ (Parse.ofText text).tree.root.elements.tokens, (Parse.ofText text).tree.token? i = some t := by
  obtain ⟨f, hf⟩ := Parse.exists_block text
  obtain ⟨i, hi⟩ := List.getElem?_of_mem ht
  have hlexed : (Lexed.ofText text).tokens[i]? = some t := by
    rw [← hf.tree_eq.2.1]
    exact hi
  exact ⟨(Parse.sound_ofText herrors).resolve_right (Parse.not_blank hlexed hsignificant), i,
    Parse.mem_tokens hlexed hsignificant, hi⟩

/-- Every token of a text that JavaScript does not have is replaced: in the end, if the stage gives a text, and as soon
as a patcher is patched whose text it stands in, whatever comes after that.  So it is not copied into what is rendered
then. -/
theorem replaces_sourceOnly (text : String) :
    let tree := (Parse.ofText text.toList).tree
    (∀ out, Stage.apply .main text = .ok out →
      ∀ t ∈ tree.tokens, t.isSourceOnly tree.text = true → (edits tree).Replaces t.range) ∧
    ((Parse.ofText text.toList).errors = [] →
      ∀ e ∈ calls tree, e.2.call ≠ .prepare → e.2.outcome.result = .ok () →
        ∀ t ∈ tree.tokens, t.isSourceOnly tree.text = true → e.2.patcher.site.content.contains t.range = true →
          e.2.outcome.context.editor.Replaces t.range ∧
          ∀ o, t.range.start ≤ o → o < t.range.stop → e.2.outcome.context.editor.reading.covers o = true) := by
  obtain ⟨hroot, block, hchildren, hblock⟩ := Parse.root_ofText text.toList
  have hsigns := Parse.signs_ofText text.toList
  have hparted := Parse.parted_ofText text.toList
  refine ⟨fun out hout t ht hs => ?_, fun herrors e he hcall hok t ht hs hcontains => ?_⟩
  · obtain ⟨herrors, hrun⟩ := run_of_apply hout
    obtain ⟨hsound, i, hi, htoken⟩ := exists_index herrors ht (Token.isSignificant_of_isSourceOnly hs)
    exact replaces_edits hsound hsigns hparted hroot hchildren hblock hrun hi htoken hs
  · obtain ⟨hsound, i, -, htoken⟩ := exists_index herrors ht (Token.isSignificant_of_isSourceOnly hs)
    have hreplaces := replaces_answered hsound hsigns hparted hroot hchildren hblock htoken hs he hcall hok hcontains
    exact ⟨hreplaces, fun o hstart hstop => hreplaces.covers hstart hstop⟩

/-- The value of an assignment by existence is cleared as soon as it is patched, and in the end the assignment is
replaced as a whole. -/
theorem replaces_sourceOnly_existence :
    let text := "x ?= @a isnt b"
    let tree := (Parse.ofText text.toList).tree
    let tokens : List Token := [⟨.existsEq, ⟨2, 4⟩⟩, ⟨.atSign, ⟨5, 6⟩⟩, ⟨.isntKw, ⟨8, 12⟩⟩]
    tree.tokens.filter (·.isSourceOnly tree.text) = tokens ∧
      (Stage.apply .main text).toOption = some "let x;\nif (x == null) \x7b x = this.a !== b; \x7d" ∧
      (∀ t ∈ tokens, (edits tree).Replaces t.range) ∧
      ∃ e ∈ calls tree, e.1 = [0, 1] ∧ e.2.call = .patch ∧ e.2.patcher.site.content = ⟨5, 14⟩ ∧
        e.2.outcome.context.editor.Replaces ⟨5, 6⟩ ∧ e.2.outcome.context.editor.Replaces ⟨8, 12⟩ := by
  intro text tree tokens
  have htokens : tree.tokens.filter (·.isSourceOnly tree.text) = tokens := by decide +kernel
  have hout : (Stage.apply .main text).toOption = some "let x;\nif (x == null) \x7b x = this.a !== b; \x7d" := by
    decide +kernel
  have hcalls : ((calls tree).any fun e => e.1 == [0, 1] && e.2.call == .patch &&
      e.2.outcome.result.toOption == some () && e.2.patcher.site.content == ⟨5, 14⟩) = true := by decide +kernel
  have hmem : ∀ t ∈ tokens, t ∈ tree.tokens ∧ t.isSourceOnly tree.text = true := fun t ht =>
    List.mem_filter.1 (htokens ▸ ht)
  have happly := eq_ok_of_toOption hout
  refine ⟨htokens, hout, fun t ht => ?_, ?_⟩
  · exact (replaces_sourceOnly text).1 _ happly t (hmem t ht).1 (hmem t ht).2
  · obtain ⟨e, he, hfound⟩ := List.any_eq_true.1 hcalls
    simp only [Bool.and_eq_true, beq_iff_eq] at hfound
    obtain ⟨⟨⟨hpath, hcall⟩, hresult⟩, hcontent⟩ := hfound
    have hreplaces (t : Token) (ht : t ∈ tokens) (hin : Span.contains ⟨5, 14⟩ t.range = true) :
        e.2.outcome.context.editor.Replaces t.range :=
      ((replaces_sourceOnly text).2 (run_of_apply happly).1 e he (by rw [hcall]; decide) (eq_ok_of_toOption hresult) t
        (hmem t ht).1 (hmem t ht).2 (by rw [hcontent]; exact hin)).1
    exact ⟨e, he, hpath, hcall, hcontent, hreplaces ⟨.atSign, ⟨5, 6⟩⟩ (by decide) rfl,
      hreplaces ⟨.isntKw, ⟨8, 12⟩⟩ (by decide) rfl⟩

end Javascript

end Respell
