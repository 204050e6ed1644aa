import Respell.Proofs.Tree.Nesting

/-!
The names that a program declares.

Scopes are built in one walk over the occurrences of nodes.  A scope is opened before anything in it is seen,
and what a scope has declared stays declared.  Hence no name has two declarations in one scope
(`Scopes.declaration_unique`).  A declaration is bound by an assignment or a loop, or it is an element of an
array that is (`Scopes.bound_of_isDeclaration`).
-/

namespace Respell

open List

variable {tree : Tree} {n c d : Node} {opened : List Nat}

/-! ## Occurrences -/

namespace Forest

variable {roleOf : Nat → Label → Role} {chain : List Nat} {place : Nat}

theorem occurrences_node (f : Forest Label) :
    (f.occurrences tree roleOf chain place).map Occurrence.node = f.descendants := by
  induction f generalizing roleOf chain place with
  | nil => rfl
  | token i rest ih => exact ih
  | node l inside rest ihInside ih => simp [occurrences, descendants, ihInside, ih]

/-- What holds of the occurrences of nodes at the top, and goes from a node to its children, holds of all. -/
theorem forall_occurrences {P : Node → Role → List Nat → Prop}
    (step : ∀ n role chain, P n role chain → ∀ i c, n.children[i]? = some c →
      P c (Role.ofChild tree n role i c.toLabel) (n.toLabel.innerChain chain))
    {f : Forest Label} (h : ∀ i c, f.nodes[i]? = some c → P c (roleOf (place + i) c.toLabel) chain) :
    ∀ o ∈ f.occurrences tree roleOf chain place, P o.node o.role o.chain := by
  induction f generalizing roleOf chain place with
  | nil => exact fun o ho => absurd ho not_mem_nil
  | token i rest ih => exact ih h
  | node l inside rest ihInside ih =>
    have hhead : P ⟨l, inside⟩ (roleOf place l) chain := h 0 ⟨l, inside⟩ rfl
    intro o ho
    simp only [occurrences, mem_cons, mem_append] at ho
    rcases ho with rfl | ho | ho
    · exact hhead
    · refine ihInside (fun i c hc => ?_) o ho
      rw [Nat.zero_add]
      exact step _ _ _ hhead i c hc
    · refine ih (fun i c hc => ?_) o ho
      rw [Nat.add_assoc, Nat.add_comm 1 i]
      exact h (i + 1) c hc

end Forest

theorem Tree.forall_occurrences {P : Node → Role → List Nat → Prop}
    (step : ∀ n role chain, P n role chain → ∀ i c, n.children[i]? = some c →
      P c (Role.ofChild tree n role i c.toLabel) (n.toLabel.innerChain chain))
    (h : ∀ c ∈ tree.root.children, P c .read [tree.root.id]) :
    ∀ o ∈ tree.occurrences, P o.node o.role o.chain :=
  Forest.forall_occurrences step fun _ c hc => h c (mem_of_getElem? hc)

variable {o : Occurrence}

theorem Tree.node_mem (ho : o ∈ tree.occurrences) : o.node ∈ tree.root.descendants := by
  refine Node.mem_descendants_of_elements ?_
  rw [← Forest.occurrences_node]
  exact mem_map_of_mem ho

/-- A node occurs in the functions around it, and in the program. -/
theorem Tree.chain_eq (h : tree.Numbered) (hroot : tree.root.kind ≠ .function) (ho : o ∈ tree.occurrences) :
    o.chain = ((tree.ancestors o.node.id).filter (·.kind == .function)).map (·.id) ++ [tree.root.id] := by
  refine (Tree.forall_occurrences (P := fun n _ chain => n ∈ tree.root.descendants ∧
    chain = ((tree.ancestors n.id).filter (·.kind == .function)).map (·.id) ++ [tree.root.id]) ?_ ?_ o ho).2
  · rintro n role chain ⟨hn, hchain⟩ i c hc
    have hc := mem_of_getElem? hc
    refine ⟨Node.descendants_child hn hc, ?_⟩
    rw [tree.ancestors_child h hn hc, Label.innerChain, hchain]
    by_cases hk : n.kind = .function <;> simp [hk]
  · intro c hc
    have hroot' := tree.root.self_mem_descendants
    refine ⟨Node.descendants_child hroot' hc, ?_⟩
    rw [tree.ancestors_child h hroot' hc, tree.ancestors_root h]
    simp [hroot]

/-- A node occurs in the scope around it. -/
theorem Tree.chain_head? (h : tree.Numbered) (hroot : tree.root.kind ≠ .function) (ho : o ∈ tree.occurrences) :
    o.chain.head? = some (tree.enclosing o.node.id) := by
  rw [Tree.chain_eq h hroot ho, head?_append, head?_map, head?_filter, Tree.enclosing]
  cases (tree.ancestors o.node.id).find? fun n => n.kind == .function <;> rfl

/-! ## Bound nodes -/

/-- The nodes that an assignment or a loop binds. -/
def boundIn (tree : Tree) (n : Node) : List Node :=
  ((AssignmentView.ofNode? n).bind (·.lhs)).toList ++
    (LoopView.ofNode? tree n).elim [] fun v => v.key.toList ++ v.value.toList

/-- The node is bound by an assignment or a loop, or it is an element of an array that is. -/
inductive Tree.Binds (tree : Tree) : Node → Prop
  | bound {n c : Node} (hn : n ∈ tree.root.descendants) (hc : c ∈ boundIn tree n) : Binds tree c
  | element {n c : Node} (hn : n ∈ tree.root.descendants) (h : Binds tree n) (hk : n.kind = .array)
    (hc : c ∈ n.children) : Binds tree c

theorem boundIn_of_assign (hk : n.kind = .assign ∨ n.kind = .existsAssign) :
    boundIn tree n = n.children.head?.toList := by
  have hloop : LoopView.ofNode? tree n = none := if_neg fun h => by rw [h] at hk; simp at hk
  rw [boundIn, AssignmentView.ofNode?, if_pos hk, hloop]
  simp [head?_eq_getElem?]

theorem boundIn_of_loop {v : LoopView} (hv : LoopView.ofNode? tree n = some v) :
    boundIn tree n = v.key.toList ++ v.value.toList := by
  have hk : n.kind = .forExpr := by
    by_contra hk
    rw [LoopView.ofNode?, if_neg hk] at hv
    cases hv
  rw [boundIn, AssignmentView.ofNode?, if_neg (by rw [hk]; decide), hv]
  rfl

theorem boundIn_of_ne (hassign : ¬ (n.kind = .assign ∨ n.kind = .existsAssign)) (hloop : n.kind ≠ .forExpr) :
    boundIn tree n = [] := by
  rw [boundIn, AssignmentView.ofNode?, if_neg hassign, LoopView.ofNode?, if_neg hloop]
  rfl

/-- What a scan takes for a binding is one of the items. -/
theorem LoopView.Scan.mem_bindings {items : List Item} {scan : Scan}
    (hc : c ∈ (items.foldl (Scan.item tree) scan).bindings) : c ∈ scan.bindings ∨ .node c ∈ items := by
  have hstep (scan : Scan) (x : Item) (hc : c ∈ (Scan.item tree scan x).bindings) :
      c ∈ scan.bindings ∨ .node c = x := by
    cases x with
    | token i =>
      simp only [Scan.item, Scan.token] at hc
      split at hc <;> exact Or.inl hc
    | node d =>
      simp only [Scan.item, Scan.node] at hc
      repeat' split at hc
      all_goals first
        | exact Or.inl hc
        | exact (mem_append.1 hc).imp_right fun h => by rw [mem_singleton.1 h]
  induction items generalizing scan with
  | nil => exact Or.inl hc
  | cons x items ih =>
    rcases ih hc with hc | hc
    · exact (hstep scan x hc).imp_right fun h => by rw [h]; exact mem_cons_self
    · exact Or.inr (mem_cons_of_mem x hc)

/-- What a node binds is among its children. -/
theorem mem_children_of_boundIn (hc : c ∈ boundIn tree n) : c ∈ n.children := by
  by_cases hassign : n.kind = .assign ∨ n.kind = .existsAssign
  · rw [boundIn_of_assign hassign] at hc
    exact mem_of_mem_head? (Option.mem_toList.1 hc)
  by_cases hloop : n.kind = .forExpr
  · rw [boundIn_of_loop (if_pos hloop)] at hc
    have hbinding : c ∈ (n.items.foldl (LoopView.Scan.item tree) {}).bindings := by
      simp only [LoopView.Scan.finish] at hc
      split at hc <;> rcases mem_append.1 hc with hc | hc <;> exact mem_of_getElem? (Option.mem_toList.1 hc)
    exact Node.mem_children.2 ((LoopView.Scan.mem_bindings hbinding).resolve_left not_mem_nil)
  · rw [boundIn_of_ne hassign hloop] at hc
    cases hc

/-- How the child at a place comes by a role.  It is bound as an element of an array, as the target of an assignment, or
in the header of a loop; a parameter stands in a list of parameters, which is in a function, or in front of its default
value; and what stands where nothing belongs is silent. -/
inductive Role.Handed (tree : Tree) (n : Node) (role : Role) (i : Nat) (l : Label) : Role → Prop
  | read : Handed tree n role i l .read
  | silence (silent : role = .silent) : Handed tree n role i l .silent
  | member (kind : n.kind = .function) (params : l.kind ≠ .paramList) (body : l.kind ≠ .block) :
    Handed tree n role i l .silent
  | operand (kind : n.kind = .assign ∨ n.kind = .existsAssign) (place : 2 ≤ i) : Handed tree n role i l .silent
  | part (param : role = .param) (place : n.kind = .defaultParam → 2 ≤ i) : Handed tree n role i l .silent
  | element (bound : role = .bind) (kind : n.kind = .array) : Handed tree n role i l .bind
  | target (kind : n.kind = .assign ∨ n.kind = .existsAssign) (first : i = 0) : Handed tree n role i l .bind
  | binding {v : LoopView} (view : LoopView.ofNode? tree n = some v)
    (mem : l.id ∈ (v.key.toList ++ v.value.toList).map (·.id)) : Handed tree n role i l .bind
  | params (kind : n.kind = .function) (list : l.kind = .paramList) : Handed tree n role i l .params
  | param (list : role = .params) : Handed tree n role i l .param
  | default (param : role = .param) (kind : n.kind = .defaultParam) (first : i = 0) : Handed tree n role i l .param

theorem Role.handed {role r : Role} {i : Nat} {l : Label} (h : Role.ofChild tree n role i l = r) :
    Role.Handed tree n role i l r := by
  subst h
  cases role with
  | params => exact .param rfl
  | silent => exact .silence rfl
  | param =>
    simp only [Role.ofChild]
    split
    · split
      · exact .default rfl ‹_› rfl
      · exact .read
      · exact .part rfl fun _ => (Nat.two_le_iff i).2 ⟨‹_›, ‹_›⟩
    · exact .part rfl fun hk => absurd hk ‹_›
  | read | bind =>
    unfold Role.ofChild
    dsimp only
    cases hk : n.kind
    case array => first | exact .element rfl hk | exact .read
    case assign | existsAssign =>
      dsimp only
      split
      · exact .target (by simp [hk]) rfl
      · exact .read
      · exact .operand (by simp [hk]) ((Nat.two_le_iff i).2 ⟨‹_›, ‹_›⟩)
    case function =>
      dsimp only
      split
      · exact .params hk ‹_›
      · exact .read
      · exact .member hk ‹_› ‹_›
    case forExpr =>
      dsimp only
      split
      · cases hv : LoopView.ofNode? tree n with
        | none => simp_all
        | some v => exact .binding hv (by simp_all)
      · exact .read
    all_goals exact .read

/-- A node that occurs bound is bound. -/
theorem Tree.binds_of_role (h : tree.Numbered) (ho : o ∈ tree.occurrences) (hrole : o.role = .bind) :
    tree.Binds o.node := by
  refine (Tree.forall_occurrences (P := fun n role _ => n ∈ tree.root.descendants ∧
    (role = .bind → tree.Binds n)) ?_ ?_ o ho).2 hrole
  · rintro n role _ ⟨hn, hbinds⟩ i c hi
    have hc := mem_of_getElem? hi
    refine ⟨Node.descendants_child hn hc, fun hrole => ?_⟩
    cases Role.handed hrole with
    | element hrole hk => exact .element hn (hbinds hrole) hk hc
    | target hk hfirst =>
      refine .bound hn ?_
      rw [boundIn_of_assign hk, head?_eq_getElem?, ← hfirst, hi]
      exact mem_singleton_self c
    | binding hv hid =>
      -- The loop binds by numbers, which tell the nodes of a tree apart.
      obtain ⟨d, hd, hid⟩ := mem_map.1 hid
      rw [← boundIn_of_loop hv] at hd
      have hd' := Node.descendants_child hn (mem_children_of_boundIn hd)
      rw [Node.eq_of_id h hd' (Node.descendants_child hn hc) hid] at hd
      exact .bound hn hd
  · exact fun c hc => ⟨Node.descendants_child tree.root.self_mem_descendants hc, fun hrole => by cases hrole⟩

/-! ## Open scopes -/

/-- The scopes that are open once an occurrence has been seen. -/
def Occurrence.opens (o : Occurrence) (opened : List Nat) : List Nat :=
  if o.node.kind = .function ∧ (o.role = .read ∨ o.role = .bind) then o.node.id :: opened else opened

theorem Occurrence.subset_opens (o : Occurrence) (opened : List Nat) : opened ⊆ o.opens opened := by
  unfold opens
  split
  · exact subset_cons_self _ _
  · exact List.Subset.refl _

/-- Every occurrence that says something about names stands in a scope, and all scopes around it were opened
before. -/
def Opened : List Nat → List Occurrence → Prop
  | _, [] => True
  | opened, o :: os => (o.role ≠ .silent → o.chain ≠ [] ∧ o.chain ⊆ opened) ∧ Opened (o.opens opened) os

variable {os : List Occurrence}

theorem Opened.mono {opened' : List Nat} (h : Opened opened os) (hsub : opened ⊆ opened') : Opened opened' os := by
  induction os generalizing opened opened' with
  | nil => trivial
  | cons o os ih =>
    refine ⟨fun hrole => ⟨(h.1 hrole).1, List.Subset.trans (h.1 hrole).2 hsub⟩, ih h.2 ?_⟩
    unfold Occurrence.opens
    split
    · exact cons_subset_cons _ hsub
    · exact hsub

theorem Opened.append {os' : List Occurrence} (h : Opened opened os) (h' : Opened opened os') :
    Opened opened (os ++ os') := by
  induction os generalizing opened with
  | nil => exact h'
  | cons o os ih => exact ⟨h.1, ih h.2 (h'.mono (o.subset_opens opened))⟩

theorem Forest.opened_occurrences (f : Forest Label) {roleOf : Nat → Label → Role} {chain : List Nat} {place : Nat}
    (hroles : ∀ i l, roleOf i l ≠ .silent → chain ≠ [] ∧ chain ⊆ opened)
    (hparams : ∀ i l, roleOf i l = .params → l.kind = .paramList) :
    Opened opened (f.occurrences tree roleOf chain place) := by
  induction f generalizing roleOf chain opened place with
  | nil => trivial
  | token i rest ih => exact ih hroles hparams
  | node l inside rest ihInside ih =>
    obtain ⟨o, ho⟩ : ∃ o : Occurrence, o = ⟨⟨l, inside⟩, roleOf place l, chain⟩ := ⟨_, rfl⟩
    have hinside : Opened (o.opens opened) (inside.occurrences tree
        (Role.ofChild tree ⟨l, inside⟩ (roleOf place l)) (l.innerChain chain) 0) := by
      refine ihInside (fun i l' hrole => ?_) fun i l' h => by cases Role.handed h; assumption
      have hsilent : roleOf place l ≠ .silent := fun h => by
        rw [h] at hrole
        exact hrole rfl
      have hopened := List.Subset.trans (hroles place l hsilent).2 (o.subset_opens opened)
      unfold Label.innerChain
      split
      · rename_i hk
        refine ⟨cons_ne_nil _ _, cons_subset.2 ⟨?_, hopened⟩⟩
        -- A function is read or bound, or nothing in it says anything.
        have hactive : roleOf place l = .read ∨ roleOf place l = .bind := by
          cases hr : roleOf place l with
          | read => exact Or.inl rfl
          | bind => exact Or.inr rfl
          | silent => exact absurd hr hsilent
          | params => cases hk.symm.trans (hparams place l hr)
          | param =>
            rw [hr] at hrole
            simp [Role.ofChild, hk] at hrole
        rw [ho, Occurrence.opens, if_pos ⟨hk, hactive⟩]
        exact mem_cons_self
      · exact ⟨(hroles place l hsilent).1, hopened⟩
    rw [occurrences, ← ho]
    refine ⟨fun hrole => ?_, hinside.append ((ih hroles hparams).mono (o.subset_opens opened))⟩
    rw [ho] at hrole ⊢
    exact hroles place l hrole

theorem Tree.opened_occurrences (tree : Tree) : Opened [tree.root.id] tree.occurrences :=
  Forest.opened_occurrences _ (fun _ _ _ => ⟨cons_ne_nil _ _, List.Subset.refl _⟩) fun _ _ h => by cases h

/-! ## Declaring -/

/-- The occurrence binds a name. -/
def Occurrence.IsBinding (o : Occurrence) : Prop := o.node.kind = .ident ∧ o.role = .bind

namespace Scopes

variable {s s' : Scopes} {w : Nat} {x : String} {o : Occurrence} {opened : List Nat}

/-- The scope has declared the name. -/
def HasName (s : Scopes) (w : Nat) (x : String) : Prop := ∃ c, s.scope? w = some c ∧ x ∈ c.declared

/-- Every scope is one of those around it. -/
def Owned (s : Scopes) : Prop := ∀ c ∈ s.scopes, c.owner ∈ c.chain

theorem owner_of_scope? {c : Scope} (h : s.scope? w = some c) : c ∈ s.scopes ∧ c.owner = w := by
  rw [scope?] at h
  exact ⟨mem_of_find?_eq_some h, by simpa using find?_some (p := fun c : Scope => c.owner == w) h⟩

theorem HasName.isDeclared (h : s.HasName w x) (howned : s.Owned) : s.isDeclared w x = true := by
  obtain ⟨c, hc, hx⟩ := h
  obtain ⟨hmem, rfl⟩ := owner_of_scope? hc
  refine any_eq_true.2 ⟨c, mem_filterMap.2 ⟨c.owner, ?_, hc⟩, by simpa using hx⟩
  rw [Scopes.chain, hc]
  exact howned c hmem

/-- Scopes are kept, with at least the names that they had. -/
def Grows (s s' : Scopes) : Prop :=
  ∀ w c, s.scope? w = some c → ∃ c', s'.scope? w = some c' ∧ c.declared ⊆ c'.declared

theorem Grows.isSome (h : Grows s s') (hw : (s.scope? w).isSome) : (s'.scope? w).isSome := by
  obtain ⟨c, hc⟩ := Option.isSome_iff_exists.1 hw
  obtain ⟨c', hc', -⟩ := h w c hc
  rw [hc']
  rfl

theorem Grows.hasName (h : Grows s s') (hw : s.HasName w x) : s'.HasName w x := by
  obtain ⟨c, hc, hx⟩ := hw
  obtain ⟨c', hc', hsub⟩ := h w c hc
  exact ⟨c', hc', hsub hx⟩

theorem scope?_modify (s : Scopes) (owner : Nat) {f : Scope → Scope} (hf : ∀ c, (f c).owner = c.owner) (w : Nat) :
    (s.modify owner f).scope? w = (s.scope? w).map fun c => if c.owner == owner then f c else c := by
  have hp : (fun c : Scope => c.owner == w) ∘ (fun c : Scope => if c.owner == owner then f c else c) =
      fun c : Scope => c.owner == w := by
    funext c
    simp only [Function.comp]
    split
    · rw [hf]
    · rfl
  rw [modify, scope?, find?_map, hp]
  rfl

theorem scope?_declare (s : Scopes) (owner : Nat) (x : String) (w : Nat) :
    (s.declare owner x).scope? w =
      (s.scope? w).map fun c => if c.owner == owner then { c with declared := x :: c.declared } else c :=
  scope?_modify (f := fun c => { c with declared := x :: c.declared }) s owner (fun _ => rfl) w

theorem grows_declare (s : Scopes) (owner : Nat) (x : String) : Grows s (s.declare owner x) := by
  intro w c hc
  refine ⟨_, by rw [scope?_declare, hc]; rfl, ?_⟩
  dsimp only
  split
  · exact subset_cons_self _ _
  · exact List.Subset.refl _

theorem hasName_declare (h : (s.scope? w).isSome) (x : String) : (s.declare w x).HasName w x := by
  obtain ⟨c, hc⟩ := Option.isSome_iff_exists.1 h
  refine ⟨{ c with declared := x :: c.declared }, ?_, mem_cons_self⟩
  rw [scope?_declare, hc, Option.map_some, if_pos (by simpa using (owner_of_scope? hc).2)]

theorem Owned.declare (h : s.Owned) (owner : Nat) (x : String) : (s.declare owner x).Owned := by
  intro c hc
  obtain ⟨c₀, hc₀, rfl⟩ := mem_map.1 hc
  have := h c₀ hc₀
  split <;> exact this

/-! ## Seeing -/

/-- What seeing an occurrence does: scopes grow, a binding declares its name, and it is the declaration of the
name if that was not declared before. -/
structure Sees (tree : Tree) (s : Scopes) (o : Occurrence) (s' : Scopes) : Prop where
  grows : Grows s s'
  owned : s.Owned → s'.Owned
  opens : o.node.kind = .function → o.role = .read ∨ o.role = .bind → (s'.scope? o.node.id).isSome
  named : o.IsBinding → ∀ w, o.chain.head? = some w → (s.scope? w).isSome → s'.HasName w (tree.nodeText o.node)
  declares : s'.declarations = s.declarations ∨ o.IsBinding ∧ s'.declarations = o.node.id :: s.declarations ∧
    ∀ w, o.chain.head? = some w → s.isDeclared w (tree.nodeText o.node) = false

theorem sees_see (tree : Tree) (s : Scopes) (o : Occurrence) : Sees tree s o (see tree s o) := by
  have other {s' : Scopes} (hs : s'.scopes = s.scopes) (hd : s'.declarations = s.declarations)
      (hfun : o.node.kind = .function → ¬ (o.role = .read ∨ o.role = .bind)) (hbind : ¬ o.IsBinding) :
      Sees tree s o s' := by
    have hscope (w : Nat) : s'.scope? w = s.scope? w := by rw [scope?, hs, scope?]
    refine ⟨fun w c hc => ⟨c, hscope w ▸ hc, List.Subset.refl _⟩, fun h c hc => h c (hs ▸ hc), ?_, ?_, Or.inl hd⟩
    · exact fun hk hrole => absurd hrole (hfun hk)
    · exact fun h => absurd h hbind
  have declare (s₁ : Scopes) (hs : s₁.scopes = s.scopes) (hk : o.node.kind = .ident)
      (hd : s₁.declarations = s.declarations ∨ o.IsBinding ∧ s₁.declarations = o.node.id :: s.declarations ∧
        ∀ w, o.chain.head? = some w → s.isDeclared w (tree.nodeText o.node) = false) :
      Sees tree s o (s₁.declare (o.chain.headD s.root) (tree.nodeText o.node)) := by
    have hscope (w : Nat) : s₁.scope? w = s.scope? w := by rw [scope?, hs, scope?]
    refine ⟨fun w c hc => grows_declare s₁ _ _ w c (hscope w ▸ hc), fun h => Owned.declare ?_ _ _, ?_, ?_, hd⟩
    · exact fun c hc => h c (hs ▸ hc)
    · rw [hk]
      exact fun h => by cases h
    · intro _ w hw hsome
      rw [headD_eq_head?_getD, hw]
      exact hasName_declare (hscope w ▸ hsome) _
  have opens (hk : o.node.kind = .function) :
      Sees tree s o { s with scopes := s.scopes ++ [{ owner := o.node.id, chain := o.node.id :: o.chain }] } := by
    refine ⟨fun w c hc => ⟨c, ?_, List.Subset.refl _⟩, fun h c hc => ?_, fun _ _ => ?_, ?_, Or.inl rfl⟩
    · rw [scope?] at hc ⊢
      rw [find?_append, hc]
      rfl
    · rcases mem_append.1 hc with hc | hc
      · exact h c hc
      · rw [mem_singleton.1 hc]
        exact mem_cons_self
    · rw [scope?, find?_append]
      simp
    · exact fun h => by cases hk.symm.trans h.1
  unfold see
  extract_lets owner name s₁
  split
  · rename_i hk hrole
    exact other rfl rfl (by simp [hk]) (by simp [Occurrence.IsBinding, hrole])
  · rename_i hk hrole
    refine declare s₁ ?_ hk ?_
    · show (if _ then s else _ : Scopes).scopes = _
      split <;> rfl
    · show (if _ then s else _ : Scopes).declarations = _ ∨ _ ∧ (if _ then s else _ : Scopes).declarations = _ ∧ _
      split
      · exact Or.inl rfl
      · rename_i hnew
        refine Or.inr ⟨⟨hk, hrole⟩, rfl, fun w hw => ?_⟩
        rw [show owner = w by simp only [owner, headD_eq_head?_getD, hw, Option.getD_some]] at hnew
        simpa using hnew
  · rename_i hk hrole
    exact declare s rfl hk (Or.inl rfl)
  iterate 2
    · rename_i hk _
      exact opens hk
  · rename_i h₁ h₂ h₃ h₄ h₅
    exact other rfl rfl (fun hk hrole => hrole.elim (h₄ hk) (h₅ hk)) fun h => h₂ h.1 h.2

/-- The scopes that are open stay so. -/
theorem Sees.isSome_opens (h : Sees tree s o s') (hopen : ∀ w ∈ opened, (s.scope? w).isSome) :
    ∀ w ∈ o.opens opened, (s'.scope? w).isSome := by
  intro w hw
  unfold Occurrence.opens at hw
  split at hw
  · rename_i hk
    rcases mem_cons.1 hw with rfl | hw
    · exact h.opens hk.1 hk.2
    · exact h.grows.isSome (hopen w hw)
  · exact h.grows.isSome (hopen w hw)

/-- What is known once the occurrences `seen` have been seen. -/
structure Kept (tree : Tree) (seen : List Occurrence) (s : Scopes) : Prop where
  owned : s.Owned
  named : ∀ o ∈ seen, o.IsBinding → ∀ w, o.chain.head? = some w → s.HasName w (tree.nodeText o.node)
  origin : ∀ id ∈ s.declarations, ∃ o ∈ seen, o.IsBinding ∧ o.node.id = id
  unique : ∀ o ∈ seen, ∀ o' ∈ seen, o.IsBinding → o'.IsBinding →
    ∀ w, o.chain.head? = some w → o'.chain.head? = some w → tree.nodeText o.node = tree.nodeText o'.node →
    o.node.id ∈ s.declarations → o'.node.id ∈ s.declarations → o.node.id = o'.node.id

variable {seen : List Occurrence}

theorem Kept.see (h : Kept tree seen s) (hs : Sees tree s o s')
    (hscope : o.role ≠ .silent → ∃ w, (s.scope? w).isSome ∧ o.chain.head? = some w)
    (hfresh : o.node.id ∉ seen.map (·.node.id)) : Kept tree (seen ++ [o]) s' := by
  have hnew : o.node.id ∉ s.declarations := fun hmem => by
    obtain ⟨o', ho', -, hid⟩ := h.origin _ hmem
    exact hfresh (hid ▸ mem_map_of_mem (f := (·.node.id)) ho')
  have hbound (hb : o.IsBinding) (w : Nat) (hw : o.chain.head? = some w) : s'.HasName w (tree.nodeText o.node) := by
    obtain ⟨w', hsome, hw'⟩ := hscope (by rw [hb.2]; decide)
    cases hw.symm.trans hw'
    exact hs.named hb w hw hsome
  have hdecl (id : Nat) (hid : id ∈ s'.declarations) : id ∈ s.declarations ∨ id = o.node.id := by
    rcases hs.declares with hd | ⟨-, hd, -⟩
    · exact Or.inl (hd ▸ hid)
    · rw [hd] at hid
      exact (mem_cons.1 hid).symm
  -- A name that was bound before is declared, so a later binding of it is no declaration.
  have hlater {o₁ : Occurrence} (ho₁ : o₁ ∈ seen) (hb₁ : o₁.IsBinding) {w : Nat} (hw₁ : o₁.chain.head? = some w)
      (hw : o.chain.head? = some w) (htext : tree.nodeText o₁.node = tree.nodeText o.node) :
      o.node.id ∉ s'.declarations := by
    intro hmem
    rcases hs.declares with hd | ⟨-, -, hfirst⟩
    · exact hnew (hd ▸ hmem)
    · have := (h.named o₁ ho₁ hb₁ w hw₁).isDeclared h.owned
      rw [htext, hfirst w hw] at this
      cases this
  refine ⟨hs.owned h.owned, ?_, ?_, ?_⟩
  · intro o' ho' hb w hw
    rcases mem_append.1 ho' with ho' | ho'
    · exact hs.grows.hasName (h.named o' ho' hb w hw)
    · rw [mem_singleton.1 ho'] at hb hw ⊢
      exact hbound hb w hw
  · intro id hid
    rcases hs.declares with hd | ⟨hb, hd, -⟩
    · obtain ⟨o', ho', h'⟩ := h.origin id (hd ▸ hid)
      exact ⟨o', mem_append_left _ ho', h'⟩
    · rw [hd] at hid
      rcases mem_cons.1 hid with rfl | hid
      · exact ⟨o, mem_append_right _ (mem_singleton_self o), hb, rfl⟩
      · obtain ⟨o', ho', h'⟩ := h.origin id hid
        exact ⟨o', mem_append_left _ ho', h'⟩
  · intro o₁ ho₁ o₂ ho₂ hb₁ hb₂ w hw₁ hw₂ htext hmem₁ hmem₂
    have hold {o' : Occurrence} (ho' : o' ∈ seen) (hmem : o'.node.id ∈ s'.declarations) :
        o'.node.id ∈ s.declarations := by
      refine (hdecl _ hmem).resolve_right fun hid => hfresh ?_
      rw [← hid]
      exact mem_map_of_mem (f := (·.node.id)) ho'
    rcases mem_append.1 ho₁ with ho₁ | ho₁ <;> rcases mem_append.1 ho₂ with ho₂ | ho₂
    · exact h.unique o₁ ho₁ o₂ ho₂ hb₁ hb₂ w hw₁ hw₂ htext (hold ho₁ hmem₁) (hold ho₂ hmem₂)
    · rw [mem_singleton.1 ho₂] at hw₂ htext hmem₂
      exact absurd hmem₂ (hlater ho₁ hb₁ hw₁ hw₂ htext)
    · rw [mem_singleton.1 ho₁] at hw₁ htext hmem₁
      exact absurd hmem₁ (hlater ho₂ hb₂ hw₂ hw₁ htext.symm)
    · rw [mem_singleton.1 ho₁, mem_singleton.1 ho₂]

theorem Kept.foldl {os : List Occurrence} (h : Kept tree seen s) (hos : Opened opened os)
    (hopen : ∀ w ∈ opened, (s.scope? w).isSome) (hnodup : ((seen ++ os).map (·.node.id)).Nodup) :
    Kept tree (seen ++ os) (os.foldl (Scopes.see tree) s) := by
  induction os generalizing s seen opened with
  | nil => rwa [append_nil]
  | cons o os ih =>
    have hs := sees_see tree s o
    rw [append_cons] at hnodup ⊢
    refine ih (h.see hs (fun hrole => ?_) ?_) hos.2 ?_ hnodup
    · obtain ⟨hne, hsub⟩ := hos.1 hrole
      exact ⟨_, hopen _ (hsub (head_mem hne)), head?_eq_some_head hne⟩
    · rw [map_append, map_append] at hnodup
      have := (nodup_append.1 (nodup_append.1 hnodup).1).2.2
      exact fun hmem => this _ hmem _ (mem_map_of_mem (mem_singleton_self o)) rfl
    · exact hs.isSome_opens hopen

theorem kept_ofTree (h : tree.root.Sound tree) : Kept tree tree.occurrences (ofTree tree) := by
  have hstart : Kept tree [] { root := tree.root.id, scopes := [{ owner := tree.root.id, chain := [tree.root.id] }] } :=
    ⟨by simp [Owned], by simp, by simp, by simp⟩
  refine hstart.foldl tree.opened_occurrences (by simp [scope?]) ?_
  have hids := h.ids
  rw [← Forest.descendants_toLabel, map_map] at hids
  have hinside : (tree.root.elements.descendants.map (·.id)).Nodup := by
    simp only [Node.toForest, Forest.descendants, append_nil, map_cons] at hids
    exact (nodup_cons.1 hids).2
  rwa [← Forest.occurrences_node, map_map] at hinside

/-- The occurrence of a declaration. -/
theorem exists_occurrence (h : tree.root.Sound tree) (hd : d ∈ tree.root.descendants)
    (hdecl : (ofTree tree).isDeclaration d = true) : ∃ o ∈ tree.occurrences, o.IsBinding ∧ o.node = d := by
  obtain ⟨o, ho, hb, hid⟩ := (kept_ofTree h).origin d.id (by simpa [isDeclaration] using hdecl)
  exact ⟨o, ho, hb, h.eq_of_id (Tree.node_mem ho) hd hid⟩

/-- A declaration is an identifier that is bound. -/
theorem bound_of_isDeclaration (h : tree.root.Sound tree) (hd : d ∈ tree.root.descendants)
    (hdecl : (ofTree tree).isDeclaration d = true) : d.kind = .ident ∧ tree.Binds d := by
  obtain ⟨o, ho, hb, rfl⟩ := exists_occurrence h hd hdecl
  exact ⟨hb.1, Tree.binds_of_role h.ids ho hb.2⟩

/-- A name has one declaration in a scope. -/
theorem declaration_unique (h : tree.root.Sound tree) (hroot : tree.root.kind ≠ .function)
    (hc : c ∈ tree.root.descendants) (hd : d ∈ tree.root.descendants)
    (hcd : (ofTree tree).isDeclaration c = true) (hdd : (ofTree tree).isDeclaration d = true)
    (hscope : tree.enclosing c.id = tree.enclosing d.id) (htext : tree.nodeText c = tree.nodeText d) : c = d := by
  obtain ⟨o, ho, hb, rfl⟩ := exists_occurrence h hc hcd
  obtain ⟨o', ho', hb', rfl⟩ := exists_occurrence h hd hdd
  refine h.eq_of_id hc hd ((kept_ofTree h).unique o ho o' ho' hb hb' _ (Tree.chain_head? h.ids hroot ho) ?_ htext ?_ ?_)
  · rw [hscope]
    exact Tree.chain_head? h.ids hroot ho'
  · simpa [isDeclaration] using hcd
  · simpa [isDeclaration] using hdd

end Scopes

end Respell
