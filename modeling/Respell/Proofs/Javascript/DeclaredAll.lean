import Respell.Proofs.Javascript.Translated

/-!
Every new name is declared.

A new name that is not declared where it stands waits in the frame of a statement around it, and is put in
front of that statement when its frame ends.  So at any time a name that was met is introduced or still waits
(`Declares.introduced`), and when all is done there is no frame left to wait in.

An element of an array in an array is a new name that no construct owns, and it gets no declaration
(`nested_name_undeclared`).
-/

namespace Respell.Javascript

open Lexeme List

variable {tree : Tree} {d : Node}

/-- The edits declare the name. -/
inductive Introduced (tree : Tree) (e : Editor) (d : Node) : Prop
  /-- By a `let` in front of the assignment to it. -/
  | inline {n : Node} (hn : n ∈ tree.root.descendants) (hd : d ∈ assigned n) (h : Written e n.range.start "let ")
  /-- By a line in front of a statement around it. -/
  | line {b s : Node} {text : String} {names : List String} (hb : b ∈ tree.root.descendants) (hk : b.kind = .block)
    (hs : s ∈ b.children) (hd : d ∈ s.descendants) (h : Written e s.range.start text)
    (hline : Let.ofText? text = some (.line names)) (hname : tree.nodeText d ∈ names)
  | loop (h : Headed tree e d)

/-! ## Edits that are added -/

theorem Headed.grown {e e' : Editor} (h : Headed tree e d) (hgrown : Grown e e') : Headed tree e' d := by
  obtain ⟨m, v, c, code, hm, hv, hc, hd, ⟨e₀, hbefore, hcode⟩, hwritten⟩ := h
  refine ⟨m, v, c, code, hm, hv, hc, hd, ⟨e₀, hbefore.trans hgrown, hcode⟩, ?_⟩
  rcases hwritten with ⟨tail, hw⟩ | ⟨body, s, tail, hbody, hs, hw⟩
  · exact Or.inl ⟨tail, hgrown.written hw⟩
  · exact Or.inr ⟨body, s, tail, hbody, hs, hgrown.written hw⟩

theorem Introduced.grown {e e' : Editor} (h : Introduced tree e d) (hgrown : Grown e e') : Introduced tree e' d := by
  cases h with
  | inline hn hd h => exact .inline hn hd (hgrown.written h)
  | line hb hk hs hd h hline hname => exact .line hb hk hs hd (hgrown.written h) hline hname
  | loop h => exact .loop (h.grown hgrown)

/-! ## Names that wait -/

/-- The name waits in a frame. -/
def Waiting (fs : List DeclarationFrame) (x : String) : Prop := ∃ f ∈ fs, x ∈ f.names

theorem Waiting.gains {fs fs' : List DeclarationFrame} {x : String} (hw : Waiting fs x)
    (h : List.Forall₂ (Gains tree) fs fs') : Waiting fs' x := by
  obtain ⟨f, hf, hx⟩ := hw
  obtain ⟨i, hi⟩ := getElem?_of_mem hf
  obtain ⟨f', hf', hgains⟩ := forall₂_getElem?_left h hi
  exact ⟨f', mem_of_getElem? hf', hgains.names hx⟩

theorem waiting_addName? {x : String} {p : DeclarationFrame → Bool} {fs fs' : List DeclarationFrame}
    (h : Context.addName? x p fs = some fs') : Waiting fs' x := by
  induction fs generalizing fs' with
  | nil => cases h
  | cons f fs ih =>
    unfold Context.addName? at h
    split at h
    · cases h
      refine ⟨_, mem_cons_self, ?_⟩
      split
      · rename_i hx
        simpa using hx
      · simp
    · obtain ⟨more, hmore, rfl⟩ := Option.map_eq_some_iff.1 h
      obtain ⟨f', hf', hx⟩ := ih hmore
      exact ⟨f', mem_cons_of_mem _ hf', hx⟩

/-- The name is declared, or it waits for it. -/
def Settled (tree : Tree) (g : Context) (d : Node) : Prop :=
  Introduced tree g.editor d ∨ Waiting g.declarations (tree.nodeText d)

theorem Settled.evolves {g g' : Context} (h : Settled tree g d) (hevolves : Evolves tree g g') : Settled tree g' d :=
  h.imp (·.grown hevolves.grown) (·.gains hevolves.frames)

/-- When a frame ends, its names are put in front of its statement. -/
theorem Settled.statement {b s : Node} {flag : Bool} {g g₁ g₂ g' : Context}
    (hnames : ∀ d ∈ tree.root.descendants, isNew tree d = true → IsName (tree.nodeText d).toList)
    (hb : b ∈ tree.root.descendants) (hk : b.kind = .block) (hs : s ∈ b.children) (hd : d ∈ s.descendants)
    (hevolves : Evolves tree (g.beginDeclarations flag) g₁) (hquiet : Quiet NoLet g₁.endDeclarations.2 g₂)
    (hflush : Flushed s g₁.endDeclarations.1 g₂ g') (h : Settled tree g₁ d) : Settled tree g' d := by
  obtain ⟨f, hframes, hends, -, -⟩ := hevolves.exists_frame
  have hafter : Evolves tree g₁.endDeclarations.2 g' := .trans (.of_quiet hquiet) (.of_flushed hflush)
  rcases h with h | ⟨f', hf', hx⟩
  · exact Or.inl (h.grown hafter.grown)
  rw [hframes] at hf'
  rcases mem_cons.1 hf' with rfl | hf'
  · rw [← hends] at hx
    rcases hflush.cases hnames hevolves with ⟨hnil, -⟩ | ⟨text, hline, hedited⟩
    · rw [hnil] at hx
      cases hx
    · refine Or.inl (.line hb hk hs hd (Or.inl ?_) hline hx)
      rw [hedited.added.puts]
      exact mem_append_right _ (mem_singleton_self _)
  · exact Settled.evolves (Or.inr ⟨f', hf', hx⟩) hafter

/-- Every name that was met is declared, or waits for it. -/
theorem Declares.introduced {S : Nat} {ds : List Node} {g g' : Context} (h : Declares tree S ds g g')
    (hnames : ∀ d ∈ tree.root.descendants, isNew tree d = true → IsName (tree.nodeText d).toList) :
    ∀ d ∈ ds, Settled tree g' d := by
  induction h with
  | quiet _ hds => exact fun d hd => Or.inl (.loop (hds d hd))
  | seq _ h' ih ih' =>
    intro d hd
    exact (mem_append.1 hd).elim (fun hd => (ih d hd).evolves h'.evolves) (ih' d)
  | perm hperm _ ih => exact fun d hd => ih d (hperm.mem_iff.2 hd)
  | loose _ _ _ ih => exact ih
  | @declare _ d g hoist _ _ _ hframes =>
    intro c hc
    obtain rfl := mem_singleton.1 hc
    rcases declare_cases g (tree.nodeText c) hoist with ⟨hnil, -⟩ | ⟨p, -, hadded⟩
    · exact absurd hnil hframes
    · exact Or.inr (waiting_addName? hadded)
  | inline hn _ h =>
    refine fun d hd => Or.inl (.inline hn hd (Or.inl ?_))
    rw [h.added.puts]
    exact mem_append_right _ (mem_singleton_self _)
  | statement hb hk hs hds _ _ h hquiet hflush ih =>
    exact fun d hd => .statement hnames hb hk hs (hds d hd) h.evolves hquiet hflush (ih d hd)

/-! ## Texts -/

theorem isNew_of_blank (h : tree.Blank) (hd : d ∈ tree.root.descendants) : isNew tree d = false := by
  obtain ⟨block, hdescendants, hblock, -⟩ := exists_descendants_of_blank h
  rw [hdescendants] at hd
  rcases mem_pair.1 hd with rfl | rfl
  · simp [isNew, h.kind]
  · simp [isNew, hblock]

/-- Every new name of a program that compiles is declared, if it is not nested: in front of the assignment to
it, in the loop that binds it, or in front of a statement around it.  Nothing comes between a line with `let` and the
statement that it stands in front of, unless this statement touches the token before it, as in `else(f(x = 1))`. -/
theorem new_name_introduced {text out : String} (h : compile .main text = .ok out) :
    ∃ normalized, Stage.apply .normalize text = .ok normalized ∧
      let tree := (Parse.ofText normalized.toList).tree
      (∀ d ∈ tree.root.descendants, isNew tree d = true → ¬ Nested tree d → Introduced tree (edits tree) d) ∧
      ∀ s ∈ tree.root.descendants, Detached tree s → ∀ i ∈ (edits tree).inserts, i.offset = s.range.start →
        i.order < 0 ∨ i.text = "function" ∨ i.text = "let " := by
  obtain ⟨normalized, hnormal, hmain, hstages⟩ := exists_stages h
  refine ⟨normalized, hnormal, ?_, fun s _ hs => order_of_detached hmain hs⟩
  rcases hstages with hblank | ⟨tree, block, g', htree, hsound, hroot, hchildren, -, ⟨-, g, hquiet, hdeclares⟩, hedits⟩
  · intro d hd hnew
    cases (isNew_of_blank hblank hd).symm.trans hnew
  · rw [← htree]
    intro d hd hnew hflat
    have hmem := mem_declared hsound hd hnew hflat
    rw [declared_root hroot hchildren] at hmem
    rw [hedits]
    refine (hdeclares.introduced (isName_of_isNew htree hsound) d hmem).resolve_right ?_
    -- There are as many frames in the end as there were at the start.
    have hframes : List.Forall₂ (Gains tree) [] g'.declarations := by
      obtain ⟨_, hedited, -⟩ := hquiet
      have hframes := hdeclares.evolves.frames
      rwa [hedited.declarations] at hframes
    rw [forall₂_nil_left_iff.1 hframes]
    rintro ⟨f, hf, -⟩
    cases hf

theorem new_name_introduced_forms :
    let text := "f = =>\n  a = 1\n  b = (c = 2) + a\n  for d in e then g(d)\n  for k, v of m then h(k, v)\n"
    let tree := (Parse.ofText text.toList).tree
    ((tree.root.descendants.filter (isNew tree)).map tree.nodeText = ["f", "a", "b", "c", "d", "k", "v"]) ∧
      ∀ d ∈ tree.root.descendants, isNew tree d = true → Introduced tree (edits tree) d := by
  intro text tree
  have hcompile : (compile .main text).toOption = some ("let f = () => \x7b\n  let a = 1;\n  let c;\n" ++
      "  let b = (c = 2) + a;\n  for (let d of e) \x7b g(d); \x7d\n" ++
      "  for (let k in m) \x7b let v = m[k]; h(k, v); \x7d\n\x7d;\n") := by decide +kernel
  obtain ⟨normalized, hnormal, h, -⟩ := new_name_introduced (eq_ok_of_toOption hcompile)
  have hsame : (Stage.apply .normalize text).toOption = some text := by decide +kernel
  rw [hnormal] at hsame
  cases hsame
  have hflat : ∀ d ∈ tree.root.descendants, isNew tree d = true → ¬ Nested tree d := by decide +kernel
  exact ⟨by decide +kernel, fun d hd hnew => h d hd hnew (hflat d hd hnew)⟩

/-- An element of an array in an array is a new name, and there is no declaration at all. -/
theorem nested_name_undeclared :
    let text := "[[a]] = b\n"
    let tree := (Parse.ofText text.toList).tree
    (compile .main text).toOption = some "[[a]] = b;\n" ∧
      (∃ d ∈ tree.root.descendants, isNew tree d = true ∧ tree.nodeText d = "a") ∧
      ¬ "let".toList <:+: "[[a]] = b;\n".toList := by
  decide +kernel

end Respell.Javascript
