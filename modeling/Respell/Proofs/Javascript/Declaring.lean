import Respell.Proofs.Javascript.Binding
import Respell.Proofs.Javascript.Lets
import Respell.Proofs.Patch.Effects

/-!
How names come to be declared.

While a statement is patched, the names that it introduces wait in its frame or in that of a statement
around it; when it has been patched, the names of its frame are put in front of it.  `Declares` says all that
patching does about names, one constructor for each step, and leaves out everything else.  Whatever is
patched does so (`declares_patch`).
-/

namespace Respell.Javascript

open List Script

variable {tree : Tree} {n c d : Node} {g' : Context}

/-- What an assignment, in parentheses or not, assigns to. -/
def assigned (s : Node) : List Node :=
  ((AssignmentView.ofNode? s.unwrapParens).bind (·.lhs)).elim [] targets

/-- A loop declares the name: the code of the binding that holds it stands behind `let`, in the header of the
loop or in front of the first statement of its body. -/
def Headed (tree : Tree) (e : Editor) (d : Node) : Prop :=
  ∃ m v c code, m ∈ tree.root.descendants ∧ LoopView.ofNode? tree m = some v ∧ c ∈ boundIn tree m ∧ d ∈ targets c ∧
    (∃ e₀, Grown e₀ e ∧ e₀.renderRangeInclusive c.range = .ok code) ∧
    ((∃ tail, Written e m.range.start ("for (let " ++ code ++ tail)) ∨
      ∃ body s tail, v.body = some body ∧ body.children.head? = some s ∧
        Written e s.range.start ("let " ++ code ++ " = " ++ tail))

/-- The names were put in front of the statement, if there are any. -/
def Flushed (s : Node) (names : List String) (g g' : Context) : Prop :=
  (names = [] ∧ g' = g) ∨ (names ≠ [] ∧ ∃ space : String, space.toList.all isSpace = true ∧
    Edited [(s.range.start, "let " ++ ", ".intercalate names ++ ";" ++ space)] g g')

/-- From one context to the other the new names `ds` were introduced, while the scope `S` was at work. -/
inductive Declares (tree : Tree) : (S : Nat) → (ds : List Node) → Context → Context → Prop
  /-- Nothing is to be done for the names of a loop that are declared in it. -/
  | quiet {S : Nat} {ds : List Node} {g g' : Context} (h : Quiet NoLet g g')
    (hds : ∀ d ∈ ds, Headed tree g'.editor d) : Declares tree S ds g g'
  | seq {S : Nat} {ds ds' : List Node} {g g₁ g' : Context} (h : Declares tree S ds g g₁)
    (h' : Declares tree S ds' g₁ g') : Declares tree S (ds ++ ds') g g'
  | perm {S : Nat} {ds ds' : List Node} {g g' : Context} (hperm : ds.Perm ds') (h : Declares tree S ds g g') :
    Declares tree S ds' g g'
  /-- The name waits in a frame. -/
  | declare {S : Nat} {d : Node} {g : Context} (hoist : Bool) (hd : d ∈ tree.root.descendants)
    (hnew : isNew tree d = true) (hscope : tree.enclosing d.id = S) (hframes : g.declarations ≠ []) :
    Declares tree S [d] g (g.declare (tree.nodeText d) hoist)
  /-- `let` stands in front of an assignment. -/
  | inline {S : Nat} {n : Node} {g g' : Context} (hn : n ∈ tree.root.descendants) (hne : assigned n ≠ [])
    (h : Edited [(n.range.start, "let ")] g g') : Declares tree S (assigned n) g g'
  /-- A statement of a block, with a frame of its own. -/
  | statement {S S' : Nat} {ds : List Node} {b s : Node} {flag : Bool} {g g₁ g₂ g' : Context}
    (hb : b ∈ tree.root.descendants) (hk : b.kind = .block) (hs : s ∈ b.children)
    (hds : ∀ d ∈ ds, d ∈ s.descendants) (hS : S = tree.enclosing s.id) (hS' : S' = S ∨ flag = true)
    (h : Declares tree S ds (g.beginDeclarations flag) g₁) (hquiet : Quiet NoLet g₁.endDeclarations.2 g₂)
    (hflush : Flushed s g₁.endDeclarations.1 g₂ g') : Declares tree S' ds g g'
  /-- A part of a function that stands outside its block. -/
  | loose {S : Nat} {n c : Node} {g g' : Context} (hn : n ∈ tree.root.descendants) (hc : c ∈ loose tree n)
    (h : Declares tree n.id (declared tree c) g g') : Declares tree S (declared tree c) g g'

/-! ## What stays as it is -/

/-- The frame may have got new names. -/
structure Gains (tree : Tree) (f f' : DeclarationFrame) : Prop where
  names : f.names ⊆ f'.names
  fresh : ∀ x ∈ f'.names, x ∈ f.names ∨ ∃ d ∈ tree.root.descendants, isNew tree d = true ∧ tree.nodeText d = x
  isScopeBody : f'.isScopeBody = f.isScopeBody

namespace Gains

theorem refl (f : DeclarationFrame) : Gains tree f f := ⟨List.Subset.refl _, fun _ hx => Or.inl hx, rfl⟩

theorem trans {f f' f'' : DeclarationFrame} (h : Gains tree f f') (h' : Gains tree f' f'') : Gains tree f f'' where
  names := List.Subset.trans h.names h'.names
  fresh := fun x hx => (h'.fresh x hx).elim (h.fresh x) Or.inr
  isScopeBody := h'.isScopeBody.trans h.isScopeBody

theorem of_addName? {p : DeclarationFrame → Bool} {fs fs' : List DeclarationFrame} (hd : d ∈ tree.root.descendants)
    (hnew : isNew tree d = true) (h : Context.addName? (tree.nodeText d) p fs = some fs') :
    List.Forall₂ (Gains tree) fs fs' := by
  induction fs generalizing fs' with
  | nil => cases h
  | cons f fs ih =>
    unfold Context.addName? at h
    split at h
    · cases h
      refine .cons ?_ (forall₂_same.2 fun f _ => .refl f)
      split
      · exact .refl f
      · refine ⟨subset_append_left _ _, fun x hx => ?_, rfl⟩
        refine (mem_append.1 hx).imp id fun hx => ⟨d, hd, hnew, (mem_singleton.1 hx).symm⟩
    · obtain ⟨more, hmore, rfl⟩ := Option.map_eq_some_iff.1 h
      exact .cons (.refl f) (ih hmore)

end Gains

/-- A name is added to the first frame, or to the first of a body. -/
theorem declare_cases (g : Context) (x : String) (hoist : Bool) :
    (g.declarations = [] ∧ (g.declare x hoist).declarations = []) ∨
      ∃ p, (p = (·.isScopeBody) ∨ p = fun _ => true) ∧
        Context.addName? x p g.declarations = some (g.declare x hoist).declarations := by
  unfold Context.declare
  dsimp only
  generalize hh : (if hoist = true then Context.addName? x (·.isScopeBody) g.declarations else none) = hoisted
  cases hoisted with
  | some fs =>
    split at hh
    · exact Or.inr ⟨_, Or.inl rfl, hh⟩
    · cases hh
  | none =>
    cases hg : g.declarations with
    | nil => exact Or.inl ⟨rfl, rfl⟩
    | cons f fs => exact Or.inr ⟨_, Or.inr rfl, rfl⟩

/-- What all steps leave as it is: edits are only added, and frames only get names. -/
structure Evolves (tree : Tree) (g g' : Context) : Prop where
  tree_eq : g'.tree = g.tree
  stage_eq : g'.stage = g.stage
  frames : List.Forall₂ (Gains tree) g.declarations g'.declarations
  grown : Grown g.editor g'.editor

namespace Evolves

variable {g g' : Context}

theorem trans {g'' : Context} (h : Evolves tree g g') (h' : Evolves tree g' g'') : Evolves tree g g'' := by
  have hframes : ∀ {fs fs' fs'' : List DeclarationFrame}, List.Forall₂ (Gains tree) fs fs' →
      List.Forall₂ (Gains tree) fs' fs'' → List.Forall₂ (Gains tree) fs fs'' := by
    intro fs fs' fs'' h
    induction h generalizing fs'' with
    | nil => exact id
    | cons hf _ ih =>
      rintro (_ | ⟨hf', h'⟩)
      exact .cons (hf.trans hf') (ih h')
  exact ⟨h'.tree_eq.trans h.tree_eq, h'.stage_eq.trans h.stage_eq, hframes h.frames h'.frames, h.grown.trans h'.grown⟩

theorem of_edited {ps : List (Nat × String)} (h : Edited ps g g') : Evolves tree g g' where
  tree_eq := h.tree
  stage_eq := h.stage
  frames := h.declarations ▸ forall₂_same.2 fun f _ => .refl f
  grown := ⟨ps, h.added.toAdded⟩

theorem of_quiet (h : Quiet NoLet g g') : Evolves tree g g' := by
  obtain ⟨_, h, -⟩ := h
  exact of_edited h

theorem of_flushed {s : Node} {names : List String} (h : Flushed s names g g') : Evolves tree g g' := by
  rcases h with ⟨-, rfl⟩ | ⟨-, _, -, h⟩
  · exact of_quiet (.refl _)
  · exact of_edited h

/-- The frame of a statement holds new names only. -/
theorem exists_frame {flag : Bool} (h : Evolves tree (g.beginDeclarations flag) g') :
    ∃ f, g'.declarations = f :: g'.endDeclarations.2.declarations ∧ g'.endDeclarations.1 = f.names ∧
      Gains tree ⟨[], flag⟩ f ∧ Evolves tree g g'.endDeclarations.2 := by
  have hframes := h.frames
  cases hdeclarations : g'.declarations with
  | nil =>
    rw [hdeclarations] at hframes
    cases hframes
  | cons f fs =>
    rw [hdeclarations] at hframes
    obtain ⟨hf, hfs⟩ := forall₂_cons.1 hframes
    simp only [Context.endDeclarations, hdeclarations, head?_cons, Option.map_some, Option.getD_some, tail_cons]
    exact ⟨f, rfl, rfl, hf, h.tree_eq, h.stage_eq, hfs, h.grown⟩

end Evolves

theorem Declares.evolves {S : Nat} {ds : List Node} {g : Context} (h : Declares tree S ds g g') :
    Evolves tree g g' := by
  induction h with
  | quiet h => exact .of_quiet h
  | seq _ _ ih ih' => exact ih.trans ih'
  | perm _ _ ih | loose _ _ _ ih => exact ih
  | @declare _ d g hoist hd hnew _ hframes =>
    refine ⟨rfl, rfl, ?_, .refl _⟩
    rcases declare_cases g (tree.nodeText d) hoist with ⟨hnil, -⟩ | ⟨p, -, heq⟩
    · exact absurd hnil hframes
    · exact Gains.of_addName? hd hnew heq
  | inline _ _ h => exact .of_edited h
  | statement _ _ _ _ _ _ _ hquiet hflush ih =>
    obtain ⟨f, -, -, -, hend⟩ := ih.exists_frame
    exact hend.trans (.trans (.of_quiet hquiet) (.of_flushed hflush))

/-- When a frame ends, its names are put in front of its statement as a declaration. -/
theorem Flushed.cases {s : Node} {flag : Bool} {g g₁ g₂ : Context}
    (hnames : ∀ d ∈ tree.root.descendants, isNew tree d = true → Lexeme.IsName (tree.nodeText d).toList)
    (hevolves : Evolves tree (g.beginDeclarations flag) g₁) (h : Flushed s g₁.endDeclarations.1 g₂ g') :
    (g₁.endDeclarations.1 = [] ∧ g' = g₂) ∨
      ∃ text, Let.ofText? text = some (.line g₁.endDeclarations.1) ∧ Edited [(s.range.start, text)] g₂ g' := by
  refine h.imp id fun ⟨hne, space, hspace, hedited⟩ => ⟨_, Let.ofText?_line hne ?_ hspace, hedited⟩
  obtain ⟨f, -, hends, hgains, -⟩ := hevolves.exists_frame
  rw [hends]
  intro x hx
  rcases hgains.fresh x hx with hx | ⟨c, hc, hnew, rfl⟩
  · cases hx
  · exact hnames c hc hnew

/-- A context at work on the tree, with a statement around it if `inside`. -/
structure AtWork (tree : Tree) (inside : Bool) (g : Context) : Prop where
  tree : g.tree = tree
  stage : g.stage = .main
  frames : inside = true → g.declarations ≠ []

theorem Evolves.atWork {inside : Bool} {g : Context} (h : Evolves tree g g') (hg : AtWork tree inside g) :
    AtWork tree inside g' where
  tree := h.tree_eq.trans hg.tree
  stage := h.stage_eq.trans hg.stage
  frames := fun hinside hnil => by
    have hlength := h.frames.length_eq
    rw [hnil, length_nil, length_eq_zero_iff] at hlength
    exact hg.frames hinside hlength

/-! ## Scripts that declare -/

/-- A block that is patched as a statement, each of its statements with a frame of its own. -/
def IsBody (n : Node) (p : Patcher Construct) : Prop := n.kind = .block ∧ p.site.needsValue = false

/-- Patching declares what the node declares, in the scope that the node stands in.  The body of a function is
as good in any scope, since no name leaves it. -/
def Declaring (tree : Tree) (p : Patcher Construct) (g g' : Context) : Prop :=
  ∀ n S inside, n ∈ tree.root.descendants → Shows tree n p → AtWork tree inside g → (inside = true ∨ IsBody n p) →
    (S = tree.enclosing n.id ∨ (IsBody n p ∧ Tree.isScopeBody (tree.ancestors n.id).head? = true)) →
    Declares tree S (declared tree n) g g'

/-- If the script succeeds, it declares `ds` in the scope `S`, and ends so. -/
def Makes {α : Type} (tree : Tree) (S : Nat) (inside : Bool) (parts : List (Patcher Construct)) (s : Work α)
    (g : Context) (ds : List Node) (Q : α → Context → Prop) : Prop :=
  AtWork tree inside g → ∀ a g', s.Does (OnPart (Declaring tree) parts) g a g' → Declares tree S ds g g' ∧ Q a g'

namespace Makes

variable {S : Nat} {inside : Bool} {parts : List (Patcher Construct)} {α β : Type} {g : Context} {ds ds' : List Node}
  {Q : α → Context → Prop} {R : β → Context → Prop} {s : Work α} {f : α → Work β} {m : Patching α} {P : α → Prop}

theorem pure {a : α} (h : Q a g) : Makes tree S inside parts (Pure.pure a) g [] Q := by
  rintro - _ _ ⟨rfl, rfl⟩
  exact ⟨.quiet (.refl _) (by simp), h⟩

theorem fail {e : PatchError} : Makes tree S inside parts (.fail e) g ds Q := fun _ _ _ h => h.elim

theorem perm (h : Makes tree S inside parts s g ds Q) (hperm : ds.Perm ds') :
    Makes tree S inside parts s g ds' Q := fun hg a g' hdoes =>
  ⟨.perm hperm (h hg a g' hdoes).1, (h hg a g' hdoes).2⟩

theorem mono {Q' : α → Context → Prop} (h : Makes tree S inside parts s g ds Q) (hQ : ∀ a g', Q a g' → Q' a g') :
    Makes tree S inside parts s g ds Q' := fun hg a g' hdoes =>
  ⟨(h hg a g' hdoes).1, hQ _ _ (h hg a g' hdoes).2⟩

theorem bind (h : Makes tree S inside parts s g ds Q)
    (hf : ∀ a g₁, Declares tree S ds g g₁ → Q a g₁ → Makes tree S inside parts (f a) g₁ ds' R) :
    Makes tree S inside parts (s >>= f) g (ds ++ ds') R := by
  intro hg b g' hdoes
  obtain ⟨a, g₁, hs, hf'⟩ := does_bind.1 hdoes
  obtain ⟨h₁, hQ⟩ := h hg a g₁ hs
  obtain ⟨h₂, hR⟩ := hf a g₁ h₁ hQ (h₁.evolves.atWork hg) b g' hf'
  exact ⟨.seq h₁ h₂, hR⟩

theorem step (h : Quietly NoLet m P) : Makes tree S inside parts (liftM m) g [] fun _ _ => True := by
  intro _ a g' hdoes
  exact ⟨.quiet (h.of_eq (does_step.1 hdoes)).1 (by simp), trivial⟩

/-- Names that a loop declares. -/
theorem headed (h : Makes tree S inside parts s g ds Q)
    (hQ : ∀ a g', Declares tree S ds g g' → Q a g' → ∀ d ∈ ds', Headed tree g'.editor d) :
    Makes tree S inside parts s g (ds ++ ds') Q := by
  intro hg a g' hdoes
  obtain ⟨hdeclares, ha⟩ := h hg a g' hdoes
  exact ⟨.seq hdeclares (.quiet (.refl g') (hQ a g' hdeclares ha)), ha⟩

theorem after (h : Quietly NoLet m P) (hf : ∀ a g₁, Quiet NoLet g g₁ → P a → Makes tree S inside parts (f a) g₁ ds R) :
    Makes tree S inside parts (liftM m >>= f) g ds R := by
  intro hg b g' hdoes
  obtain ⟨a, g₁, hm, hf'⟩ := does_bind.1 hdoes
  obtain ⟨hquiet, ha⟩ := h.of_eq (does_step.1 hm)
  have h₁ : Declares tree S [] g g₁ := .quiet hquiet (by simp)
  obtain ⟨h₂, hR⟩ := hf a g₁ hquiet ha (h₁.evolves.atWork hg) b g' hf'
  exact ⟨.seq h₁ h₂, hR⟩

theorem of_get {f : Context → Work β} (h : g.tree = tree → Makes tree S inside parts (f g) g ds R) :
    Makes tree S inside parts (get >>= f) g ds R := by
  intro hg b g' hdoes
  obtain ⟨a, g₁, hget, hf⟩ := does_bind.1 hdoes
  obtain ⟨rfl, rfl⟩ : a = g ∧ g₁ = g := by
    cases (does_step (m := get)).1 hget
    exact ⟨rfl, rfl⟩
  exact h hg.tree hg b g' hf

theorem when {b : Prop} [Decidable b] {m : Patching PUnit} {P : PUnit → Prop} {f : PUnit → Work β}
    (h : b → Quietly NoLet m P) (hf : ∀ g₁, Quiet NoLet g g₁ → Makes tree S inside parts (f ⟨⟩) g₁ ds R) :
    Makes tree S inside parts (if b then liftM m >>= f else f ⟨⟩) g ds R := by
  split
  · exact after (h ‹_›) fun _ g₁ hquiet _ => hf g₁ hquiet
  · exact hf g (.refl g)

theorem each {T : α → β → Prop} {xs : List α} {ys : List β} {f : α → Work PUnit} {k : β → List Node}
    (hT : List.Forall₂ T xs ys) (h : ∀ x y, T x y → ∀ g, Makes tree S inside parts (f x) g (k y) fun _ _ => True) :
    Makes tree S inside parts (xs.forM f) g (ys.flatMap k) fun _ _ => True := by
  induction hT generalizing g with
  | nil => exact pure trivial
  | cons hxy _ ih => exact (h _ _ hxy g).bind fun _ g₁ _ _ => ih

end Makes

/-! ## Parts -/

theorem of_rendered {f : Editor → Except EditError String} {g : Context} {text : String}
    (h : Patching.rendered f g = (.ok text, g')) : g' = g ∧ f g.editor = .ok text := by
  refine Patching.Safe.of_eq (E := fun _ => True) (Q := fun a g' => g' = g ∧ f g.editor = .ok a) ?_ h
  apply Patching.Safe.get_bind
  cases f g.editor with
  | error e => trivial
  | ok text => exact ⟨rfl, rfl⟩

/-- The parts of a construct, all of them in the scope `S`. -/
structure Scoped (tree : Tree) (S : Nat) (nodes : List Node) (parts : List (Patcher Construct)) : Prop where
  shows : List.Forall₂ (Shows tree) nodes parts
  root : ∀ c ∈ nodes, c ∈ tree.root.descendants
  scope : ∀ c ∈ nodes, tree.enclosing c.id = S

theorem Fits.scoped {nodes : List Node} {k : Construct} {parts : List (Patcher Construct)}
    (h : tree.root.Sound tree) (hn : n ∈ tree.root.descendants) (hfits : Fits tree n.unwrapParens nodes k)
    (hk : n.unwrapParens.kind ≠ .function) (hparts : List.Forall₂ (Shows tree) nodes parts) :
    Scoped tree (tree.enclosing n.id) nodes parts := by
  have hinner := (h.descendant hn).1.unwrapParens
  have hroot : n.unwrapParens ∈ tree.root.descendants := Node.descendants_trans hn n.unwrapParens_mem
  have hchild (c : Node) (hc : c ∈ nodes) : c ∈ n.unwrapParens.children :=
    (hfits.children_perm hinner.1 hk).mem_iff.2 hc
  refine ⟨hparts, fun c hc => Node.descendants_child hroot (hchild c hc), fun c hc => ?_⟩
  rw [tree.enclosing_child h.ids hroot (hchild c hc), if_neg hk, tree.enclosing_unwrapParens h hn]

namespace Makes

variable {S : Nat} {inside : Bool} {nodes : List Node} {parts : List (Patcher Construct)} {g : Context}

theorem patch_of {ds : List Node} {i : Nat} (hparts : List.Forall₂ (Shows tree) nodes parts) (hi : nodes[i]? = some c)
    (h : ∀ q ∈ parts[i]?, ∀ g', Shows tree c q → AtWork tree inside g → Declaring tree q g g' →
      Declares tree S ds g g') :
    Makes tree S inside parts (Script.patch i) g ds fun _ _ => True := by
  intro hg _ g' hdoes
  obtain ⟨q, hq, hshows⟩ := forall₂_getElem?_left hparts hi
  exact ⟨h q hq g' hshows hg (OnPart.of_getElem? (does_patch.1 hdoes) hq), trivial⟩

variable (hs : Scoped tree S nodes parts)
include hs

theorem patch {i : Nat} (hi : nodes[i]? = some c) :
    Makes tree S true parts (Script.patch i) g (declared tree c) fun _ _ => True := by
  have hc := mem_of_getElem? hi
  exact patch_of hs.shows hi fun q _ g' hshows hg hq =>
    hq c S true (hs.root c hc) hshows hg (Or.inl rfl) (Or.inl (hs.scope c hc).symm)

theorem patchPart {q : Part} (hq : q.Of nodes c) :
    Makes tree S true parts (Script.patchPart q) g (declared tree c) fun _ _ => True :=
  patch hs hq.place

theorem patchAndRender {q : Part} (hq : q.Of nodes c) :
    Makes tree S true parts (Script.patchAndRender q) g (declared tree c) fun code g' =>
      g'.editor.renderRangeInclusive c.range = .ok code := by
  intro hg code g' hdoes
  obtain ⟨_, g₁, hpatch, hrender⟩ := does_bind.1 hdoes
  obtain ⟨hdeclares, -⟩ := patchPart hs hq hg _ _ hpatch
  rw [hq.site.whole] at hrender
  obtain ⟨rfl, hcode⟩ := of_rendered (does_step.1 hrender)
  exact ⟨hdeclares, hcode⟩

theorem patchAll {k : Nat} (hk : k = nodes.length) :
    Makes tree S true parts ((List.range k).forM Script.patch) g (nodes.flatMap (declared tree)) fun _ _ => True := by
  subst hk
  refine each (T := fun i c => nodes[i]? = some c) ?_ fun i c hi g => patch hs hi
  rw [forall₂_iff_get]
  exact ⟨length_range, fun i h1 h2 => by simp⟩

end Makes

end Respell.Javascript
