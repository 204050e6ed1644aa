import Mathlib.Data.List.Perm.Basic
import Respell.Proofs.Javascript.Patched

/-!
No name is declared twice in a block.

Fix a block and a name.  While the tree is patched, count how often the name is declared in front of a statement
of the block and, as long as the scope of the block is at work, how often it waits in a frame of that scope.  No
step adds more to this than there are new names of this text in the scope (`Declares.costs`), and there is at
most one (`hits_le_one`).

A name that a function introduces outside its block waits in a frame of a scope around it, where it meets
others: then a name may be declared twice (`declared_twice`).
-/

namespace Respell.Javascript

open List

variable {tree : Tree} {b n s c d : Node} {x : String}

/-! ## Declarations in a block -/

/-- The names that a declaration in front of the statement `s` introduces. -/
def Let.names (tree : Tree) (s : Node) : Let → List String
  | .inline => (assigned s).map tree.nodeText
  | .line names => names

/-- The names that are declared in front of a statement, by the texts that were put in. -/
def namesBefore (tree : Tree) (ps : List (Nat × String)) (s : Node) : List String :=
  ps.flatMap fun p => if p.1 = s.range.start then (Let.ofText? p.2).elim [] (Let.names tree s) else []

/-- The names that are declared in front of the statements of a block. -/
def declaredIn (tree : Tree) (ps : List (Nat × String)) (b : Node) : List String :=
  b.children.flatMap (namesBefore tree ps)

theorem count_declaredIn_append (ps qs : List (Nat × String)) :
    (declaredIn tree (ps ++ qs) b).count x = (declaredIn tree ps b).count x + (declaredIn tree qs b).count x := by
  have happend : namesBefore tree (ps ++ qs) = fun s => namesBefore tree ps s ++ namesBefore tree qs s := by
    funext s
    exact flatMap_append
  rw [declaredIn, happend, ← (flatMap_append_perm _ _ _).count_eq, count_append]
  rfl

theorem declaredIn_eq_nil {ps : List (Nat × String)} (h : ∀ p ∈ ps, Let.ofText? p.2 = none) :
    declaredIn tree ps b = [] := by
  refine flatMap_eq_nil_iff.2 fun s _ => flatMap_eq_nil_iff.2 fun p hp => ?_
  rw [h p hp]
  exact ite_self _

theorem count_flatMap_le {l : List Node} {f : Node → List String} (hnodup : l.Nodup) (h : ∀ s ∈ l, f s = [] ∨ s = n) :
    (l.flatMap f).count x ≤ if n ∈ l then (f n).count x else 0 := by
  induction l with
  | nil => simp
  | cons s l ih =>
    obtain ⟨hs, hnodup⟩ := nodup_cons.1 hnodup
    obtain ⟨hhead, htail⟩ := forall_mem_cons.1 h
    have ih := ih hnodup htail
    rw [flatMap_cons, count_append]
    rcases hhead with hnil | rfl
    · rw [hnil, count_nil, Nat.zero_add]
      refine ih.trans ?_
      by_cases hn : n ∈ l
      · rw [if_pos hn, if_pos (mem_cons_of_mem _ hn)]
      · rw [if_neg hn]
        exact Nat.zero_le _
    · rw [if_neg hs] at ih
      rw [if_pos mem_cons_self]
      omega

/-- A declaration in front of one statement of a block is in front of no other. -/
theorem count_declaredIn_put (hb : b.Sound tree) {text : String} {l : Let} (hl : Let.ofText? text = some l)
    (honly : ∀ s ∈ b.children, s.range.start = n.range.start → l.names tree s = [] ∨ s = n) :
    (declaredIn tree [(n.range.start, text)] b).count x ≤ if n ∈ b.children then (l.names tree n).count x else 0 := by
  have hbefore (s : Node) : namesBefore tree [(n.range.start, text)] s =
      if n.range.start = s.range.start then l.names tree s else [] := by
    simp [namesBefore, hl]
  have hle := count_flatMap_le (x := x) (n := n) (f := namesBefore tree [(n.range.start, text)]) (children_nodup hb) (by
    intro s hs
    rw [hbefore]
    split
    · rename_i heq
      exact honly s hs heq.symm
    · exact Or.inl rfl)
  rwa [hbefore, if_pos rfl] at hle

/-! ## Assignments -/

theorem mem_assigned (tree : Tree) (h : d ∈ assigned n) : ∃ c ∈ boundIn tree n.unwrapParens, d ∈ targets c := by
  unfold assigned at h
  cases hlhs : (AssignmentView.ofNode? n.unwrapParens).bind (·.lhs) with
  | none =>
    rw [hlhs] at h
    cases h
  | some c =>
    rw [hlhs] at h
    refine ⟨c, ?_, h⟩
    rw [boundIn, hlhs]
    exact mem_append_left _ (mem_singleton_self c)

theorem assigned_kind (hk : n.kind ≠ .parenExpr) (h : assigned n ≠ []) :
    (n.kind = .assign ∨ n.kind = .existsAssign) ∧
      ∃ c, n.children.head? = some c ∧ (c.kind = .ident ∨ c.kind = .array) := by
  obtain ⟨d, hd⟩ := exists_mem_of_ne_nil _ h
  unfold assigned at hd
  rw [Node.unwrapParens_of_ne hk, AssignmentView.ofNode?] at hd
  split at hd
  · rename_i hassign
    refine ⟨hassign, ?_⟩
    rw [Option.bind_some, ← head?_eq_getElem?] at hd
    cases hhead : n.children.head? with
    | none =>
      rw [hhead] at hd
      cases hd
    | some c =>
      rw [hhead] at hd
      exact ⟨c, rfl, (mem_targets hd).imp (·.2) (·.2)⟩
  · cases hd

/-- No assignment starts with another one. -/
theorem start_lt_of_assigned (hs : s.Sound tree) (hassigned : assigned s ≠ []) (hn : n ∈ s.elements.descendants)
    (hn' : assigned n ≠ []) : s.range.start < n.range.start := by
  rw [Forest.descendants_eq_flatMap] at hn
  obtain ⟨c, hc, hn⟩ := mem_flatMap.1 hn
  have hle := (hs.child hc).descendant hn
  by_cases hk : s.kind = .parenExpr
  · obtain ⟨inside, hchildren, -, -, hlt, -⟩ := hs.paren hk
    rw [← Node.children, hchildren] at hc
    obtain rfl := mem_singleton.1 hc
    omega
  obtain ⟨-, lhs, hlhs, hkind⟩ := assigned_kind hk hassigned
  obtain ⟨more, hchildren⟩ := head?_eq_some_iff.1 hlhs
  have happart := hs.children_apart
  rw [hchildren, pairwise_cons] at happart
  have hmem : lhs ∈ s.children := mem_of_mem_head? hlhs
  have hinside := hs.children_apart.2 lhs hmem
  rw [← Node.children, hchildren] at hc
  rcases mem_cons.1 hc with rfl | hc
  · -- Below the target there is no assignment at its start.
    have hsound := hs.child hmem
    have hne : c.kind ≠ .parenExpr := by rcases hkind with hk | hk <;> rw [hk] <;> decide
    rw [descendants_eq_children] at hn
    rcases mem_cons.1 hn with rfl | hn
    · obtain ⟨hassign, -⟩ := assigned_kind hne hn'
      rcases hkind with hk | hk <;> rw [hk] at hassign <;> simp at hassign
    · obtain ⟨e, he, hn⟩ := mem_flatMap.1 hn
      have hbelow := (hsound.child he).descendant hn
      rcases hkind with hk | hk
      · rw [(children_of_isName hsound (by rw [hk]; rfl)).1] at he
        cases he
      · have hrows := hsound.rows
        rw [hk, Syntax.production] at hrows
        obtain ⟨_, _, hitems, hleft, -⟩ := hrows.mul
        obtain ⟨_, _, rfl, hleft, -⟩ := hleft.mul
        obtain ⟨i, rfl, hi⟩ := hleft.word
        have hlt := hsound.start_lt_of_token hitems (by rw [mem_singleton.1 hi]; rfl) he
        omega
  · have hbehind := happart.1.1 c hc
    have := hinside.1.nonempty
    omega

/-- Assignments that start at the same place are the same. -/
theorem assigned_unique (h : tree.root.Sound tree) (hn : n ∈ tree.root.descendants) (hs : s ∈ tree.root.descendants)
    (hne : assigned n ≠ []) (hne' : assigned s ≠ []) (heq : s.range.start = n.range.start) : s = n := by
  have hbelow {m m' : Node} (hm : m ∈ tree.root.descendants) (hmne : assigned m ≠ []) (hmne' : assigned m' ≠ [])
      (heq : m.range.start = m'.range.start) (hmem : m' ∈ m.descendants) : m' = m := by
    rw [Node.descendants_eq] at hmem
    refine (mem_cons.1 hmem).resolve_right fun hmem => ?_
    have := start_lt_of_assigned (h.descendant hm).1 hmne hmem hmne'
    omega
  have hinside := (h.descendant hn).1.inside.nonempty
  have hinside' := (h.descendant hs).1.inside.nonempty
  rcases h.nested.below_or_apart hn hs with hmem | hmem | hmem | hmem
  · exact hbelow hn hne hne' heq.symm hmem
  · exact (hbelow hs hne' hne heq hmem).symm
  · omega
  · omega

/-! ## Frames of a scope -/

/-- The names that wait in the scope at work: in the frames up to the first that stands in a body. -/
def scopeNames : List DeclarationFrame → List String
  | [] => []
  | f :: fs => f.names ++ if f.isScopeBody then [] else scopeNames fs

/-- The frames of the scopes around. -/
def outerFrames : List DeclarationFrame → List DeclarationFrame
  | [] => []
  | f :: fs => if f.isScopeBody then fs else outerFrames fs

/-- A name is added within the scope at work. -/
theorem addName?_scope {y : String} {p : DeclarationFrame → Bool} (hp : ∀ f, f.isScopeBody = true → p f = true)
    {fs fs' : List DeclarationFrame} (h : Context.addName? y p fs = some fs') :
    outerFrames fs' = outerFrames fs ∧
      (scopeNames fs').count x ≤ (scopeNames fs).count x + if y = x then 1 else 0 := by
  induction fs generalizing fs' with
  | nil => cases h
  | cons f fs ih =>
    unfold Context.addName? at h
    split at h
    · cases h
      split
      · exact ⟨rfl, Nat.le_add_right _ _⟩
      · refine ⟨rfl, ?_⟩
        simp only [scopeNames, count_append, count_singleton, beq_iff_eq]
        omega
    · rename_i hf
      obtain ⟨more, hmore, rfl⟩ := Option.map_eq_some_iff.1 h
      have hbody : ¬ f.isScopeBody = true := fun hbody => hf (hp f hbody)
      obtain ⟨houter, hcount⟩ := ih hmore
      simp only [outerFrames, scopeNames, if_neg hbody, count_append]
      exact ⟨houter, by omega⟩

/-! ## What a step costs -/

/-- The name has this text and stands in the scope of the block. -/
def isHit (tree : Tree) (b : Node) (x : String) (d : Node) : Bool :=
  tree.enclosing d.id == tree.enclosing b.id && tree.nodeText d == x

/-- How often the text is introduced in the scope of the block. -/
def hits (tree : Tree) (b : Node) (x : String) (ds : List Node) : Nat := ds.countP (isHit tree b x)

/-- How often the name is declared in the block or waits for it. -/
def weight (tree : Tree) (b : Node) (x : String) (S : Nat) (g : Context) : Nat :=
  (declaredIn tree (puts g.editor) b).count x +
    if S = tree.enclosing b.id then (scopeNames g.declarations).count x else 0

/-- What was done in the scope `S` leaves the frames of other scopes as they are, all frames if it introduced
nothing, and the name was not declared more often than it was introduced. -/
structure Costs (tree : Tree) (b : Node) (x : String) (S : Nat) (ds : List Node) (g g' : Context) : Prop where
  outer : outerFrames g'.declarations = outerFrames g.declarations
  still : (∀ d ∈ ds, tree.enclosing d.id ≠ S) → g'.declarations = g.declarations
  weight_le : weight tree b x S g' ≤ weight tree b x S g + hits tree b x ds

namespace Costs

variable {S S' : Nat} {ds ds' : List Node} {g g₁ g₂ g' : Context}

theorem seq (h : Costs tree b x S ds g g₁) (h' : Costs tree b x S ds' g₁ g') : Costs tree b x S (ds ++ ds') g g' where
  outer := h'.outer.trans h.outer
  still := fun hds => by
    obtain ⟨h1, h2⟩ := forall_mem_append.1 hds
    exact (h'.still h2).trans (h.still h1)
  weight_le := by
    have h1 := h.weight_le
    have h2 := h'.weight_le
    rw [hits, countP_append]
    unfold hits at h1 h2
    omega

theorem perm (hperm : ds.Perm ds') (h : Costs tree b x S ds g g') : Costs tree b x S ds' g g' where
  outer := h.outer
  still := fun hds => h.still fun d hd => hds d (hperm.mem_iff.1 hd)
  weight_le := by
    rw [hits, ← hperm.countP_eq]
    exact h.weight_le

theorem of_edited {ps : List (Nat × String)} (h : Edited ps g g')
    (hps : (declaredIn tree ps b).count x ≤ hits tree b x ds) : Costs tree b x S ds g g' where
  outer := by rw [h.declarations]
  still := fun _ => h.declarations
  weight_le := by
    rw [weight, weight, h.declarations, h.added.puts, count_declaredIn_append]
    omega

theorem of_quiet (h : Quiet NoLet g g') : Costs tree b x S ds g g' := by
  obtain ⟨ps, h, hps⟩ := h
  exact of_edited h (by simp [declaredIn_eq_nil hps])

theorem declare {hoist : Bool} (hscope : tree.enclosing d.id = S) (hframes : g.declarations ≠ []) :
    Costs tree b x S [d] g (g.declare (tree.nodeText d) hoist) := by
  rcases declare_cases g (tree.nodeText d) hoist with ⟨hnil, -⟩ | ⟨p, hp, hadded⟩
  · exact absurd hnil hframes
  have hbody : ∀ f : DeclarationFrame, f.isScopeBody = true → p f = true := by
    rcases hp with rfl | rfl
    · exact fun _ hf => hf
    · exact fun _ _ => rfl
  obtain ⟨houter, hcount⟩ := addName?_scope (x := x) hbody hadded
  refine ⟨houter, fun h => absurd hscope (h d (mem_singleton_self d)), ?_⟩
  have heditor : (g.declare (tree.nodeText d) hoist).editor = g.editor := rfl
  simp only [weight, hits, heditor, countP_singleton, isHit, hscope, Bool.and_eq_true, beq_iff_eq]
  split
  · rename_i hS
    simp only [hS, true_and]
    omega
  · omega

/-- The parts of a function that stand outside its block introduce nothing in it. -/
theorem loose {T : Nat} (hds : ∀ d ∈ ds, tree.enclosing d.id ≠ T) (h : Costs tree b x T ds g g') :
    Costs tree b x S ds g g' where
  outer := h.outer
  still := fun _ => h.still hds
  weight_le := by
    have hle := h.weight_le
    simp only [weight, h.still hds] at hle ⊢
    omega

section Block

variable (h : tree.root.Sound tree) (hb : b ∈ tree.root.descendants) (hk : b.kind = .block)
include h hb hk

theorem inline (hn : n ∈ tree.root.descendants) (hne : assigned n ≠ [])
    (hedited : Edited [(n.range.start, "let ")] g g') : Costs tree b x S (assigned n) g g' := by
  refine of_edited hedited ?_
  have hlet : Let.ofText? "let " = some .inline := rfl
  have hle := count_declaredIn_put (x := x) (n := n) (h.descendant hb).1 hlet ?_
  · refine hle.trans ?_
    split
    · rename_i hmem
      rw [Let.names, List.count, countP_map]
      refine countP_mono_left fun d hd htext => ?_
      obtain ⟨c, hc, hd⟩ := mem_assigned tree hd
      have hroot := Node.descendants_trans hn n.unwrapParens_mem
      have hscope := (of_mem_targets h hroot hc hd).2
      rw [tree.enclosing_unwrapParens h hn, tree.enclosing_child h.ids hb hmem, if_neg (by rw [hk]; decide)] at hscope
      simpa [isHit, hscope] using htext
    · exact Nat.zero_le _
  · intro s hs heq
    by_cases hnil : assigned s = []
    · exact Or.inl (by rw [Let.names, hnil, map_nil])
    · exact Or.inr (assigned_unique h hn (Node.descendants_child hb hs) hne hnil heq)

variable {b' : Node} {flag : Bool}
  (hsteady : ∀ b ∈ tree.root.descendants, b.kind = .block → ∀ s ∈ b.children, s.Steady tree)
  (hnames : ∀ d ∈ tree.root.descendants, isNew tree d = true → Lexeme.IsName (tree.nodeText d).toList)
  (hb' : b' ∈ tree.root.descendants) (hk' : b'.kind = .block) (hs : s ∈ b'.children)
  (hevolves : Evolves tree (g.beginDeclarations flag) g₁) (hquiet : Quiet NoLet g₁.endDeclarations.2 g₂)
  (hflush : Flushed s g₁.endDeclarations.1 g₂ g')
include hsteady hnames hb' hk' hs hevolves hquiet hflush

/-- The end of a statement declares at most the names of its frame, and in its own block only. -/
theorem flushed :
    (declaredIn tree (puts g'.editor) b).count x ≤ (declaredIn tree (puts g₁.editor) b).count x +
      if s ∈ b.children then g₁.endDeclarations.1.count x else 0 := by
  obtain ⟨ps, hquiet, hps⟩ := hquiet
  have hsame : (declaredIn tree (puts g₂.editor) b).count x = (declaredIn tree (puts g₁.editor) b).count x := by
    rw [hquiet.added.puts, count_declaredIn_append, declaredIn_eq_nil hps]
    rfl
  rw [← hsame]
  rcases hflush.cases hnames hevolves with ⟨-, rfl⟩ | ⟨text, hline, hedited⟩
  · exact Nat.le_add_right _ _
  · rw [hedited.added.puts, count_declaredIn_append]
    refine Nat.add_le_add_left (count_declaredIn_put (h.descendant hb).1 hline fun s' hs' heq => Or.inr ?_) _
    exact h.statement_unique hb hb' hk hk' hs' hs (hsteady b hb hk s' hs') (hsteady b' hb' hk' s hs) heq

theorem statement (hS : S = tree.enclosing s.id) (hS' : S' = S ∨ flag = true)
    (hinner : Costs tree b x S ds (g.beginDeclarations flag) g₁) : Costs tree b x S' ds g g' := by
  obtain ⟨f, hframes, hends, hgains, -⟩ := hevolves.exists_frame
  have hcount := flushed (x := x) h hb hk hsteady hnames hb' hk' hs hevolves hquiet hflush
  have hafter : g'.declarations = g₁.endDeclarations.2.declarations := by
    obtain ⟨_, hquiet, -⟩ := hquiet
    rcases hflush with ⟨-, rfl⟩ | ⟨-, _, -, hedited⟩
    · exact hquiet.declarations
    · exact hedited.declarations.trans hquiet.declarations
  have hcount : (declaredIn tree (puts g'.editor) b).count x ≤ (declaredIn tree (puts g₁.editor) b).count x +
      if S = tree.enclosing b.id then f.names.count x else 0 := by
    refine hcount.trans (Nat.add_le_add_left ?_ _)
    split
    · rename_i hmem
      rw [hends, if_pos (by rw [hS, tree.enclosing_child h.ids hb hmem, if_neg (by rw [hk]; decide)])]
    · exact Nat.zero_le _
  have hbegin : (g.beginDeclarations flag).declarations = ⟨[], flag⟩ :: g.declarations := rfl
  have hflag : f.isScopeBody = flag := hgains.isScopeBody
  rw [← hafter] at hframes
  obtain ⟨houter, hstill, hweight⟩ := hinner
  simp only [weight, hframes, hbegin, outerFrames, scopeNames, hflag, count_append, nil_append] at houter hstill hweight
  have heditor : (g.beginDeclarations flag).editor = g.editor := rfl
  rw [heditor] at hweight
  cases flag with
  | true =>
    -- The frame is the first of the scope, and no name has left it.
    simp only [if_true, count_nil, Nat.add_zero, ite_self] at houter hweight
    refine ⟨by rw [houter], fun _ => houter, ?_⟩
    rw [weight, weight, houter]
    omega
  | false =>
    obtain rfl : S' = S := hS'.resolve_right (by decide)
    simp only [Bool.false_eq_true, if_false] at houter hweight
    refine ⟨houter, fun hds => (List.cons.inj (hstill hds)).2, ?_⟩
    rw [weight, weight]
    by_cases hscope : S' = tree.enclosing b.id
    · simp only [if_pos hscope] at hcount hweight ⊢
      omega
    · simp only [if_neg hscope] at hcount hweight ⊢
      omega

end Block

end Costs

/-- No function introduces a name of its own outside its block. -/
def Contained (tree : Tree) : Prop :=
  ∀ n ∈ tree.root.descendants, ∀ c ∈ loose tree n, ∀ d ∈ c.descendants, isNew tree d = true →
    tree.enclosing d.id ≠ n.id

instance (tree : Tree) : Decidable (Contained tree) :=
  inferInstanceAs (Decidable (∀ n ∈ tree.root.descendants, _))

theorem loose_mem_descendants (h : c ∈ loose tree n) : c ∈ n.descendants := by
  unfold loose at h
  cases hv : FunctionView.ofNode? tree n with
  | none =>
    rw [hv] at h
    cases h
  | some v =>
    rw [hv] at h
    refine Node.mem_descendants_of_elements (mem_descendants_of_functionNodes hv ?_)
    rcases mem_append.1 h with h | h
    · exact mem_append_left _ h
    · exact mem_append_right _ (Option.mem_toList.2 (Option.mem_filter_iff.1 (Option.mem_toList.1 h)).1)

/-- Whatever is patched declares no name more often than it is introduced. -/
theorem Declares.costs {S : Nat} {ds : List Node} {g g' : Context} (h : tree.root.Sound tree)
    (hcontained : Contained tree)
    (hsteady : ∀ b ∈ tree.root.descendants, b.kind = .block → ∀ s ∈ b.children, s.Steady tree)
    (hnames : ∀ d ∈ tree.root.descendants, isNew tree d = true → Lexeme.IsName (tree.nodeText d).toList)
    (hb : b ∈ tree.root.descendants) (hk : b.kind = .block) (hdeclares : Declares tree S ds g g') :
    Costs tree b x S ds g g' := by
  induction hdeclares with
  | quiet hquiet => exact .of_quiet hquiet
  | seq _ _ ih ih' => exact ih.seq ih'
  | perm hperm _ ih => exact ih.perm hperm
  | declare hoist _ _ hscope hframes => exact .declare hscope hframes
  | inline hn hne hedited => exact .inline h hb hk hn hne hedited
  | statement hb' hk' hs _ hS hS' hinner hquiet hflush ih =>
    exact .statement h hb hk hsteady hnames hb' hk' hs hinner.evolves hquiet hflush hS hS' ih
  | loose hn hc _ ih =>
    refine .loose (fun d hd => ?_) ih
    obtain ⟨hnew, hd⟩ := of_mem_declared h (Node.descendants_trans hn (loose_mem_descendants hc)) hd
    exact hcontained _ hn _ hc d hd hnew

/-! ## Texts -/

/-- No statement of a tree that has patchers starts with a body. -/
theorem steady_statements {block : Node} {p : Patcher Construct} (h : tree.root.Sound tree)
    (hroot : tree.root.kind = .program) (hchildren : tree.root.children = [block]) (hshows : Shows tree block p) :
    ∀ b ∈ tree.root.descendants, b.kind = .block → ∀ s ∈ b.children, s.Steady tree := by
  intro b hb hk s hs
  have hblock : block ∈ tree.root.children := by simp [hchildren]
  have hbelow : b ∈ block.descendants := by
    rw [descendants_eq_children, hchildren, flatMap_singleton] at hb
    refine (mem_cons.1 hb).resolve_left fun heq => ?_
    rw [heq, hroot] at hk
    cases hk
  have hsymbol := hshows.symbol_eq (h.child hblock) s (Node.descendants_child hbelow hs)
  have hrows := (h.descendant hb).1.rows
  rw [hk] at hrows
  have hitem := hrows.1 _ (mem_map_of_mem (Node.mem_children.1 hs))
  rw [Item.symbol, hsymbol] at hitem
  refine ⟨hsymbol, fun hkind => ?_, fun hkind => ?_⟩ <;> rw [hkind] at hitem <;> cases hitem

/-- A scope introduces a name once. -/
theorem hits_le_one (h : tree.root.Sound tree) (hroot : tree.root.kind ≠ .function) :
    hits tree b x (declared tree tree.root) ≤ 1 := by
  have hmem {d : Node} (hd : d ∈ (declared tree tree.root).filter (isHit tree b x)) :
      d ∈ tree.root.descendants ∧ (Scopes.ofTree tree).isDeclaration d = true ∧
        tree.enclosing d.id = tree.enclosing b.id ∧ tree.nodeText d = x := by
    obtain ⟨hdeclared, hhit⟩ := mem_filter.1 hd
    obtain ⟨hnew, hbelow⟩ := of_mem_declared h tree.root.self_mem_descendants hdeclared
    simp only [isNew, isHit, Bool.and_eq_true, beq_iff_eq] at hnew hhit
    exact ⟨hbelow, hnew.2, hhit⟩
  have hnodup := (declared_nodup h).filter (isHit tree b x)
  rw [hits, countP_eq_length_filter]
  generalize (declared tree tree.root).filter (isHit tree b x) = ds at hmem hnodup
  rcases ds with _ | ⟨c, _ | ⟨d, ds⟩⟩
  · exact Nat.zero_le _
  · exact Nat.le_refl _
  · obtain ⟨hc, hcd, hcs, hct⟩ := hmem mem_cons_self
    obtain ⟨hd, hdd, hds, hdt⟩ := hmem (mem_cons_of_mem _ mem_cons_self)
    have heq := Scopes.declaration_unique h hroot hc hd hcd hdd (hcs.trans hds.symm) (hct.trans hdt.symm)
    simp [heq] at hnodup

/-- No name is declared twice in front of the statements of a block, if no function introduces a name outside its
block. -/
theorem declared_once {text out : String} (h : compile .main text = .ok out) :
    ∃ normalized, Stage.apply .normalize text = .ok normalized ∧
      let tree := (Parse.ofText normalized.toList).tree
      Contained tree →
        ∀ b ∈ tree.root.descendants, b.kind = .block → (declaredIn tree (puts (edits tree)) b).Nodup := by
  obtain ⟨normalized, hnormal, -, hstages⟩ := exists_stages h
  refine ⟨normalized, hnormal, ?_⟩
  rcases hstages with hblank | ⟨tree, block, g', htree, hsound, hroot, hchildren, -, hstages, hedits⟩
  · intro tree _ b hb hk
    obtain ⟨block, hdescendants, -, hnil⟩ := exists_descendants_of_blank hblank
    replace hb : b ∈ [(Parse.ofText normalized.toList).tree.root, block] := hdescendants ▸ hb
    rcases mem_pair.1 hb with rfl | rfl
    · cases hblank.kind.symm.trans hk
    · rw [declaredIn, hnil]
      exact nodup_nil
  · rw [← htree]
    dsimp only
    intro hcontained b hb hk
    obtain ⟨⟨p, hshows⟩, g, hquiet, hdeclares⟩ := hstages
    rw [hedits, nodup_iff_count_le_one]
    intro x
    have hsteady := steady_statements hsound hroot hchildren hshows
    have hcosts := hdeclares.costs (x := x) hsound hcontained hsteady (isName_of_isNew htree hsound) hb hk
    have hstart : Costs tree b x (tree.enclosing block.id) [] (.ofTree tree .main) g := .of_quiet hquiet
    have hle := (hstart.seq hcosts).weight_le
    have hone := hits_le_one (b := b) (x := x) hsound (by rw [hroot]; decide)
    have hnone : weight tree b x (tree.enclosing block.id) (.ofTree tree .main) = 0 := by
      have hputs : declaredIn tree (puts (Context.ofTree tree .main).editor) b = [] :=
        declaredIn_eq_nil fun _ hp => absurd hp not_mem_nil
      rw [weight, hputs]
      exact (Nat.zero_add _).trans (ite_self 0)
    rw [nil_append, ← declared_root hroot hchildren, hnone, weight] at hle
    omega

theorem declared_once_nested :
    let text := "f = ->\n  a = (b = 1)\n  if a\n    [c, d] = b\n  g(c)\na = 2\n"
    let tree := (Parse.ofText text.toList).tree
    (((tree.root.descendants.filter (·.kind == .block)).map (declaredIn tree (puts (edits tree)))) =
        [["f", "a"], ["a", "b", "c"], ["d"]]) ∧
      ∀ b ∈ tree.root.descendants, b.kind = .block → (declaredIn tree (puts (edits tree)) b).Nodup := by
  intro text tree
  have hcompile : (compile .main text).toOption = some ("let f = function() \x7b\n  let b;\n  let a = (b = 1);\n" ++
      "  let c;\n  if (a) \x7b\n    let d;\n    [c, d] = b;\n  \x7d\n  return g(c);\n\x7d;\nlet a = 2;\n") := by
    decide +kernel
  have hok : compile .main text = .ok _ := eq_ok_of_toOption hcompile
  obtain ⟨normalized, hnormal, h⟩ := declared_once hok
  have hsame : (Stage.apply .normalize text).toOption = some text := by decide +kernel
  rw [hnormal] at hsame
  cases hsame
  exact ⟨by decide +kernel, h (by decide +kernel)⟩

/-- Both names are introduced by bound functions on one line, each in front of a statement around it: the block
declares `a` twice. -/
theorem declared_twice :
    let text := "f(=> a = 1)\ng(=> a = 2)\n"
    let tree := (Parse.ofText text.toList).tree
    (compile .main text).toOption = some "let a;\nf(() => a = 1);\nlet a;\ng(() => a = 2);\n" ∧
      ∃ b ∈ tree.root.children, b.kind = .block ∧ declaredIn tree (puts (edits tree)) b = ["a", "a"] := by
  decide +kernel

end Respell.Javascript
