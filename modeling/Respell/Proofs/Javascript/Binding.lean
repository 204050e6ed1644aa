import Respell.Proofs.Javascript.Prepared
import Respell.Proofs.Scoping
import Respell.Proofs.Tree.Complete

/-!
The names that a tree introduces, node by node.

An assignment or a loop *owns* the new names among its targets, and what a node declares are the names that
it and the nodes below it own.  The parts of a construct hold all nodes below it but parameters, which own
nothing (`Fits.covers`); so what a construct declares is what it owns and what its parts declare
(`declared_perm`).
-/

namespace Respell.Javascript

open List Syntax

variable {tree : Tree} {m n c d : Node} {nodes : List Node} {k : Construct} {value : Bool} {v : FunctionView}

/-! ## Parts and what is below -/

/-- A node that neither binds a name nor holds statements by itself. -/
def isSilent : Kind → Bool
  | .paramList | .defaultParam | .ident | .this | .thisMember => true
  | _ => false

theorem children_of_isName (h : c.Sound tree) (hc : isName c.kind = true) :
    c.children = [] ∧ isSilent c.kind = true := by
  have hrows := h.rows
  unfold isName at hc
  split at hc
  case h_4 => cases hc
  case h_1 hk =>
    rw [hk] at hrows ⊢
    obtain ⟨i, hitems, -⟩ := Rows.word hrows
    exact ⟨Node.children_eq hitems, rfl⟩
  case h_2 hk =>
    rw [hk] at hrows ⊢
    obtain ⟨i, hitems, -⟩ := Rows.word hrows
    exact ⟨Node.children_eq hitems, rfl⟩
  case h_3 hk =>
    rw [hk] at hrows ⊢
    obtain ⟨_, _, hitems, h1, h2⟩ := Rows.mul hrows
    obtain ⟨i, rfl, -⟩ := h1.word
    obtain ⟨j, rfl, -⟩ := h2.word
    exact ⟨Node.children_eq hitems, rfl⟩

theorem descendants_eq_children (n : Node) : n.descendants = n :: n.children.flatMap Node.descendants := by
  rw [Node.descendants_eq, Forest.descendants_eq_flatMap]
  rfl

/-- The parameters of a list hold their default values and nothing else. -/
theorem params_cover {cs : List Node} (hcs : ∀ c ∈ cs, c.Sound tree ∧ isParameter c.kind = true) :
    ∃ extra, (cs.flatMap Node.descendants).Perm
        (extra ++ ((cs.map ParamView.ofNode).filterMap (·.default?)).flatMap Node.descendants) ∧
      ∀ c ∈ extra, isSilent c.kind = true := by
  induction cs with
  | nil => exact ⟨[], by simp, by simp⟩
  | cons c cs ih =>
    obtain ⟨⟨hc, hparam⟩, hcs⟩ := forall_mem_cons.1 hcs
    obtain ⟨extra, hperm, hextra⟩ := ih hcs
    rcases hc.param_cases hparam with ⟨hname, hview⟩ | ⟨name, i, value, hitems, -, hname, hview⟩
    · obtain ⟨hchildren, hsilent⟩ := children_of_isName hc hname
      refine ⟨c :: extra, ?_, forall_mem_cons.2 ⟨hsilent, hextra⟩⟩
      simp only [flatMap_cons, map_cons, hview, filterMap_cons_none, descendants_eq_children c,
        hchildren, flatMap_nil, cons_append, nil_append]
      exact hperm.cons c
    · have hchildren : c.children = [name, value] := Node.children_eq hitems
      have hsound : name.Sound tree := hc.child (by simp [hchildren])
      obtain ⟨hnone, hsilent⟩ := children_of_isName hsound hname
      have hk : isSilent c.kind = true := by
        have : c.kind = .defaultParam := by
          by_contra hk
          rw [ParamView.ofNode, if_neg hk] at hview
          cases hview
        rw [this]
        rfl
      refine ⟨c :: name :: extra, ?_, forall_mem_cons.2 ⟨hk, forall_mem_cons.2 ⟨hsilent, hextra⟩⟩⟩
      simp only [flatMap_cons, map_cons, hview, filterMap_cons, descendants_eq_children c, hchildren,
        flatMap_nil, append_nil, descendants_eq_children name, hnone, cons_append, nil_append]
      refine ((List.Perm.append_left _ hperm).trans ?_).cons _ |>.cons _
      rw [← append_assoc, ← append_assoc]
      exact perm_append_comm.append_right _

theorem loop_children {s : LoopShape} (hs : s.Of tree m) :
    m.children = if s.isTrailing then s.body :: s.header.nodes else s.header.nodes ++ [s.body] := by
  obtain ⟨keyword, ⟨first, second, word, target, filter⟩, body, isTrailing, thenToken⟩ := s
  rw [Node.children_eq hs.items]
  cases isTrailing <;> cases second <;> cases filter <;> cases thenToken <;> rfl

/-- A loop whose target comes before its body starts with its keyword. -/
theorem exists_leading {v : LoopView} {target body : Node} (hm : m.Sound tree)
    (view : LoopView.ofNode? tree m = some v) (viewTarget : v.target = some target) (viewBody : v.body = some body)
    (leading : target.range.start ≤ body.range.start) :
    ∃ s : LoopShape, s.Of tree m ∧ s.isTrailing = false ∧ v = s.header.view tree s.keyword s.thenToken s.body := by
  have hkind := loop_kind view
  obtain ⟨s, hs⟩ := hm.exists_loopShape hkind
  obtain ⟨_, hview, hv, -, htarget, hbody, -⟩ := hs.exists_view hkind
  cases hview.symm.trans view
  cases htarget.symm.trans viewTarget
  cases hbody.symm.trans viewBody
  refine ⟨s, hs, ?_, hv⟩
  by_contra htrailing
  obtain ⟨t, -, htin, -, hstop, horder⟩ := hs.trailing hm (by simpa using htrailing)
  have htarget := horder.mem (mem_map_of_mem (f := fun c : Node => c.range) s.header.target_mem)
  have hne := (hm.child (hs.mem_children (Or.inl rfl))).inside.nonempty
  omega

/-- A loop starts with its keyword. -/
theorem start_of_keyword (hn : m.Sound tree) {keyword : Token}
    (h : ((m.tokens.bind fun r => tree.token? r.1).filter fun t => t.kind == .forKw) = some keyword) :
    keyword.range.start = m.range.start := by
  obtain ⟨a, k, -, r, hr, htokens, hrange⟩ := hn.placed.1.reach
  obtain ⟨t, ht, -, hstart⟩ := hr.first
  have htokens : m.tokens = some (r.first, r.last) := htokens
  have hrange : m.range = r.range := hrange
  rw [Option.filter_eq_some_iff, htokens] at h
  cases (show tree.token? r.first = some keyword from h.1).symm.trans ht
  rw [hrange, hstart]

/-- A conditional that does not follow its body starts with its keyword. -/
theorem exists_conditional {v : ConditionalView} (hm : m.Sound tree)
    (view : ConditionalView.ofNode? tree m = some v) (leading : v.isTrailing = false) :
    ∃ s : ConditionalShape, s.Of tree m ∧ v = s.view := by
  have hkind := conditional_kind view
  have hrows := hm.rows
  rw [hkind, production] at hrows
  rcases hrows.add with hrows | hrows
  · obtain ⟨s, hs⟩ := Node.exists_conditionalShape hrows
    exact ⟨s, hs, Option.some.inj (view.symm.trans (hs.view hkind))⟩
  · obtain ⟨body, i, condition, -, -, -, hview⟩ := Node.trailing_view hkind hrows
    cases hview.symm.trans view
    cases leading

theorem conditional_children {s : ConditionalShape} (hs : s.Of tree m) : m.children = conditionalNodes s.view := by
  rw [Node.children_eq hs.items]
  obtain ⟨keyword, condition, thenToken, consequent, alternative⟩ := s
  cases thenToken <;> rcases alternative with _ | ⟨newline, i, thenToken', a⟩ <;>
    first
    | rfl
    | (cases newline <;> cases thenToken' <;> rfl)

/-- The children of a construct other than a function are its parts. -/
theorem Fits.children_perm (hm : m.Sound tree) (h : Fits tree m nodes k) (hk : m.kind ≠ .function) :
    m.children.Perm nodes := by
  cases h with
  | block | expression => exact .refl _
  | conditional view leading =>
    obtain ⟨s, hs, rfl⟩ := exists_conditional hm view leading
    exact .of_eq (conditional_children hs)
  | loop view viewTarget viewBody leading =>
    obtain ⟨s, hs, htrailing, rfl⟩ := exists_leading hm view viewTarget viewBody leading
    rw [loop_children hs, htrailing, loopNodes, Header.view, Header.nodes]
    by_cases hw : (tree.kindAt s.header.word == .ofKw) = true
    · simp [hw]
    · simp only [hw, Option.toList_some, append_assoc, cons_append, nil_append]
      exact perm_middle.symm
  | function view => exact absurd (function_kind view) hk
  | assignment view viewLhs viewRhs =>
    obtain ⟨hlhs, hrhs, hkind⟩ := assignment_view view
    obtain ⟨a, b, hchildren⟩ : ∃ a b, m.children = [a, b] := by
      have hrows := hm.rows
      rcases hkind with hk | hk <;> rw [hk, production] at hrows <;> exact hrows.children_of_infix
    rw [hlhs, hchildren] at viewLhs
    rw [hrhs, hchildren] at viewRhs
    cases viewLhs
    cases viewRhs
    rw [hchildren]
  | returning kind =>
    have hrows := hm.rows
    rw [kind, production] at hrows
    obtain ⟨_, _, hitems, hword, hvalue⟩ := hrows.mul
    obtain ⟨i, rfl, -⟩ := hword.word
    rcases hvalue.add with hvalue | hvalue
    · rw [hvalue.one] at hitems
      rw [Node.children_eq hitems]
      rfl
    · obtain ⟨c, rfl, -⟩ := hvalue.node
      rw [Node.children_eq hitems]
      rfl

/-- Below a construct there are its parts with all that is below them, and parameters. -/
theorem Fits.covers (hm : m.Sound tree) (h : Fits tree m nodes k) :
    ∃ extra, m.elements.descendants.Perm (extra ++ nodes.flatMap Node.descendants) ∧
      ∀ c ∈ extra, isSilent c.kind = true := by
  rw [Forest.descendants_eq_flatMap]
  by_cases hk : m.kind = .function
  · obtain ⟨s, hs⟩ := hm.exists_functionShape hk
    have hview := hs.view hk
    have hnodes : nodes = functionNodes (s.view tree) := by
      obtain ⟨f, rfl⟩ := h.eq_function hk
      cases h with
      | function view => cases hview.symm.trans view; rfl
    have hchildren : m.elements.nodes = s.paramList.toList ++ s.body.toList := by
      have : m.children = _ := Node.children_eq hs.items
      rw [Node.children] at this
      rw [this]
      obtain ⟨list, arrow, body⟩ := s
      cases list <;> cases body <;> rfl
    rw [hchildren, hnodes, functionNodes, flatMap_append, flatMap_append]
    cases hlist : s.paramList with
    | none => exact ⟨[], by simp [FunctionShape.view, FunctionView.params, hlist], by simp⟩
    | some list =>
      have hmem : list ∈ m.children := by
        rw [Node.children, hchildren, hlist]
        exact mem_cons_self
      have hkList := hs.paramList list hlist
      have hsound := hm.child hmem
      obtain ⟨extra, hperm, hextra⟩ := params_cover fun c hc => ⟨hsound.child hc, hsound.isParameter hkList hc⟩
      refine ⟨list :: extra, ?_, forall_mem_cons.2 ⟨by rw [hkList]; rfl, hextra⟩⟩
      simp only [FunctionShape.view, FunctionView.params, hlist, Option.toList_some, flatMap_cons,
        flatMap_nil, append_nil, descendants_eq_children list, cons_append, ← append_assoc]
      exact (hperm.append_right _).cons _
  · exact ⟨[], (h.children_perm hm hk).flatMap_right _, by simp⟩

/-! ## Nodes that start with no body -/

/-- No construct starts with its body. -/
theorem Fits.symbol_eq (hm : m.Sound tree) (h : Fits tree m nodes k) : m.symbol tree = .node m.kind := by
  have htoken {i : Nat} {rest : List Item} (hitems : m.elements.items = .token i :: rest) :
      m.symbol tree = .node m.kind := by
    rw [Node.symbol, Forest.symbols_eq_map, hitems]
    rfl
  have hother (hfor : m.kind ≠ .forExpr) (hif : m.kind ≠ .ifExpr) : m.symbol tree = .node m.kind :=
    Symbol.ofNode_of_ne hfor hif _
  have hstands := h.standsFor
  cases h with
  | conditional view leading =>
    obtain ⟨s, hs, -⟩ := exists_conditional hm view leading
    exact htoken hs.items
  | loop view viewTarget viewBody leading =>
    obtain ⟨s, hs, htrailing, -⟩ := exists_leading hm view viewTarget viewBody leading
    have hitems : m.elements.items = _ := hs.items
    rw [LoopShape.items, htrailing] at hitems
    exact htoken hitems
  | block | function | assignment | returning | expression =>
    refine hother ?_ ?_ <;> intro hk <;> rw [hk] at hstands <;> cases hstands

/-- No node of a tree that has patchers starts with a body. -/
theorem Shows.symbol_eq {p : Patcher Construct} (hn : n.Sound tree) (h : Shows tree n p) :
    ∀ c ∈ n.descendants, c.symbol tree = .node c.kind := by
  induction n using Node.descendants_induction generalizing p with
  | step n ih =>
    intro c hc
    rw [descendants_eq_children] at hc
    by_cases hk : n.kind = .parenExpr
    · obtain ⟨inside, hchildren, hsound, hunwrap, -, -⟩ := hn.paren hk
      rw [hchildren] at hc
      rcases mem_cons.1 hc with rfl | hc
      · exact Symbol.ofNode_of_ne (by rw [hk]; decide) (by rw [hk]; decide) _
      · have hmem : inside ∈ n.children := by simp [hchildren]
        exact ih inside (Node.child_mem_descendants hmem) hsound (h.withOuter hunwrap.symm) c (by simpa using hc)
    · obtain ⟨nodes, -, hfits, hparts, -, -, -⟩ := h
      rw [Node.unwrapParens_of_ne hk] at hfits
      rcases mem_cons.1 hc with rfl | hc
      · exact hfits.symbol_eq hn
      obtain ⟨extra, hperm, hextra⟩ := hfits.covers hn
      rw [Forest.descendants_eq_flatMap] at hperm
      rcases mem_append.1 (hperm.mem_iff.1 hc) with hc | hc
      · have hsilent := hextra c hc
        exact Symbol.ofNode_of_ne (fun h => by rw [h] at hsilent; cases hsilent)
          (fun h => by rw [h] at hsilent; cases hsilent) _
      · obtain ⟨a, ha, hc⟩ := mem_flatMap.1 hc
        have hbelow := hfits.mem_descendants hn ha
        obtain ⟨i, hi⟩ := getElem?_of_mem ha
        obtain ⟨q, -, hq⟩ := forall₂_getElem?_left hparts hi
        exact ih a hbelow (hn.descendant (Node.mem_descendants_of_elements hbelow)).1 hq c hc

/-- What is collected from a construct and all below it comes from the construct itself and from its parts, if there is
nothing to collect from silent nodes and from parentheses. -/
theorem Fits.flatMap_descendants {α : Type} {f : Node → List α} (h : Fits tree n.unwrapParens nodes k)
    (hn : n.Sound tree) (hsilent : ∀ c, isSilent c.kind = true → f c = [])
    (hparen : ∀ c, c.kind = .parenExpr → f c = []) :
    (n.descendants.flatMap f).Perm (f n.unwrapParens ++ nodes.flatMap fun c => c.descendants.flatMap f) := by
  refine Node.Sound.parens_induction (P := fun n => Fits tree n.unwrapParens nodes k → (n.descendants.flatMap f).Perm
    (f n.unwrapParens ++ nodes.flatMap fun c => c.descendants.flatMap f)) ?_ ?_ n hn h
  · intro n hn hk h
    rw [Node.unwrapParens_of_ne hk] at h ⊢
    obtain ⟨extra, hperm, hextra⟩ := h.covers hn
    rw [Node.descendants_eq, flatMap_cons]
    refine List.Perm.append_left _ ((hperm.flatMap_right _).trans (.of_eq ?_))
    have hnil : extra.flatMap f = [] := flatMap_eq_nil_iff.2 fun c hc => hsilent c (hextra c hc)
    rw [flatMap_append, hnil, nil_append, flatMap_assoc]
  · intro n c _ hk hchildren _ hunwrap _ _ ih h
    rw [hunwrap] at h ⊢
    rw [descendants_eq_children, hchildren, flatMap_cons, hparen n hk]
    simpa using ih h

/-! ## Names -/

/-- The new names that an assignment or a loop introduces. -/
def own (tree : Tree) (m : Node) : List Node := ((boundIn tree m).flatMap targets).filter (isNew tree)

/-- The new names that the nodes from `n` down introduce. -/
def declared (tree : Tree) (n : Node) : List Node := n.descendants.flatMap (own tree)

/-- An element of an array in an array. -/
def Nested (tree : Tree) (d : Node) : Prop :=
  ∃ a ∈ tree.root.descendants, a.kind = .array ∧ ∃ c ∈ a.children, c.kind = .array ∧ d ∈ c.children

instance (tree : Tree) (d : Node) : Decidable (Nested tree d) :=
  inferInstanceAs (Decidable (∃ a ∈ tree.root.descendants, _))

theorem own_eq_nil (h : ¬ (m.kind = .assign ∨ m.kind = .existsAssign)) (hloop : m.kind ≠ .forExpr) :
    own tree m = [] := by
  rw [own, boundIn_of_ne h hloop]
  rfl

theorem own_of_isSilent (h : isSilent m.kind = true) : own tree m = [] := by
  refine own_eq_nil ?_ fun hk => by rw [hk] at h; cases h
  rintro (hk | hk) <;> rw [hk] at h <;> cases h

/-- What a construct declares is what it owns and what its parts declare. -/
theorem declared_perm (hn : n.Sound tree) (h : Fits tree n.unwrapParens nodes k) :
    (declared tree n).Perm (own tree n.unwrapParens ++ nodes.flatMap (declared tree)) :=
  h.flatMap_descendants hn (fun _ => own_of_isSilent) fun _ hk =>
    own_eq_nil (by rw [hk]; decide) (by rw [hk]; decide)

theorem mem_targets (h : d ∈ targets c) : (d = c ∧ c.kind = .ident) ∨ (d ∈ c.children ∧ c.kind = .array) := by
  unfold targets at h
  split at h
  · rename_i hk
    exact Or.inl ⟨mem_singleton.1 h, hk⟩
  · rename_i hk
    exact Or.inr ⟨h, hk⟩
  · cases h

theorem mem_own (h : d ∈ own tree m) : isNew tree d = true ∧ ∃ c ∈ boundIn tree m, d ∈ targets c := by
  obtain ⟨h, hnew⟩ := mem_filter.1 h
  exact ⟨hnew, mem_flatMap.1 h⟩

theorem ne_function_of_boundIn (h : c ∈ boundIn tree m) : m.kind ≠ .function := fun hk => by
  rw [boundIn_of_ne (by rw [hk]; decide) (by rw [hk]; decide)] at h
  cases h

theorem children_nodup (hn : n.Sound tree) : n.children.Nodup := by
  refine hn.children_apart.1.imp_of_mem fun {a b} ha _ hab heq => ?_
  have := (hn.child ha).inside.nonempty
  rw [← heq] at hab
  omega

theorem boundIn_nodup (hm : m.Sound tree) : (boundIn tree m).Nodup := by
  have hchildren := children_nodup hm
  by_cases hassign : m.kind = .assign ∨ m.kind = .existsAssign
  · rw [boundIn_of_assign hassign]
    cases m.children.head? <;> simp
  by_cases hloop : m.kind = .forExpr
  · obtain ⟨s, hs⟩ := hm.exists_loopShape hloop
    rw [boundIn_of_loop (hs.view hloop)]
    have hnodes : s.header.nodes.Nodup := by
      rw [loop_children hs] at hchildren
      split at hchildren
      · exact (nodup_cons.1 hchildren).2
      · exact (nodup_append.1 hchildren).1
    rw [← Header.view_nodes s.header s.keyword s.thenToken s.body] at hnodes
    have hbindings := (nodup_append.1 hnodes).1
    split at hbindings
    · exact hbindings
    · exact (perm_append_comm.nodup_iff).1 hbindings
  · rw [boundIn_of_ne hassign hloop]
    exact nodup_nil

section Root

variable (h : tree.root.Sound tree)
include h

/-- A target stands below its owner, and in the same scope. -/
theorem of_mem_targets (hm : m ∈ tree.root.descendants) (hc : c ∈ boundIn tree m) (hd : d ∈ targets c) :
    d ∈ m.descendants ∧ tree.enclosing d.id = tree.enclosing m.id := by
  have hcm := mem_children_of_boundIn hc
  have hroot := Node.descendants_child hm hcm
  have hscope := tree.enclosing_child h.ids hm hcm
  rw [if_neg (ne_function_of_boundIn hc)] at hscope
  have hbelow : c ∈ m.descendants := Node.mem_descendants_of_child hcm
  rcases mem_targets hd with ⟨rfl, -⟩ | ⟨hdc, hk⟩
  · exact ⟨hbelow, hscope⟩
  · refine ⟨Node.descendants_child hbelow hdc, ?_⟩
    rw [tree.enclosing_child h.ids hroot hdc, if_neg (by rw [hk]; decide), hscope]

theorem of_mem_declared (hn : n ∈ tree.root.descendants) (hd : d ∈ declared tree n) :
    isNew tree d = true ∧ d ∈ n.descendants := by
  obtain ⟨m, hm, hd⟩ := mem_flatMap.1 hd
  obtain ⟨hnew, c, hc, hd⟩ := mem_own hd
  exact ⟨hnew, Node.descendants_trans hm (of_mem_targets h (Node.descendants_trans hn hm) hc hd).1⟩

/-- A target has one owner. -/
theorem owner_unique {m' c' : Node} (hm : m ∈ tree.root.descendants) (hm' : m' ∈ tree.root.descendants)
    (hc : c ∈ boundIn tree m) (hc' : c' ∈ boundIn tree m') (hd : d ∈ targets c) (hd' : d ∈ targets c') :
    m = m' ∧ c = c' := by
  have hcm := mem_children_of_boundIn hc
  have hcm' := mem_children_of_boundIn hc'
  have hroot := Node.descendants_child hm hcm
  have hroot' := Node.descendants_child hm' hcm'
  -- An array is no owner.
  have harray {a : Node} (hk : a.kind = .array) {x : Node} : x ∉ boundIn tree a := fun hx => by
    rw [boundIn_of_ne (by rw [hk]; decide) (by rw [hk]; decide)] at hx
    cases hx
  rcases mem_targets hd with ⟨rfl, -⟩ | ⟨hdc, hk⟩ <;> rcases mem_targets hd' with ⟨rfl, -⟩ | ⟨hdc', hk'⟩
  · exact ⟨tree.parent_unique h.ids hm hm' hcm hcm', rfl⟩
  · cases tree.parent_unique h.ids hm hroot' hcm hdc'
    exact absurd hc (harray hk')
  · cases tree.parent_unique h.ids hm' hroot hcm' hdc
    exact absurd hc' (harray hk)
  · cases tree.parent_unique h.ids hroot hroot' hdc hdc'
    exact ⟨tree.parent_unique h.ids hm hm' hcm hcm', rfl⟩

/-- Every name is owned once. -/
theorem declared_nodup : (declared tree tree.root).Nodup := by
  rw [declared, nodup_flatMap]
  refine ⟨fun m hm => List.Nodup.filter _ (nodup_flatMap.2 ⟨fun c hc => ?_, ?_⟩), ?_⟩
  · have hroot := Node.descendants_child hm (mem_children_of_boundIn hc)
    unfold targets
    split
    · exact nodup_singleton c
    · exact children_nodup (h.descendant hroot).1
    · exact nodup_nil
  · refine (boundIn_nodup (h.descendant hm).1).imp_of_mem fun {c c'} hc hc' hne => ?_
    intro d hd hd'
    exact hne (owner_unique h hm hm hc hc' hd hd').2
  · refine h.descendants_nodup.imp_of_mem fun {m m'} hm hm' hne => ?_
    intro d hd hd'
    obtain ⟨-, c, hc, hd⟩ := mem_own hd
    obtain ⟨-, c', hc', hd'⟩ := mem_own hd'
    exact hne (owner_unique h hm hm' hc hc' hd hd').1

/-- A new name that is not nested is owned. -/
theorem mem_declared (hd : d ∈ tree.root.descendants) (hnew : isNew tree d = true) (hflat : ¬ Nested tree d) :
    d ∈ declared tree tree.root := by
  simp only [isNew, Bool.and_eq_true, beq_iff_eq] at hnew
  have howned {m c : Node} (hm : m ∈ tree.root.descendants) (hc : c ∈ boundIn tree m) (hdc : d ∈ targets c) :
      d ∈ declared tree tree.root :=
    mem_flatMap.2 ⟨m, hm, mem_filter.2 ⟨mem_flatMap.2 ⟨c, hc, hdc⟩, by simp [isNew, hnew]⟩⟩
  obtain ⟨hk, hbinds⟩ := Scopes.bound_of_isDeclaration h hd hnew.2
  cases hbinds with
  | bound hm hc => exact howned hm hc (by simp [targets, hk])
  | @element a _ ha hbinds hka hda =>
    have htarget : d ∈ targets a := by simpa [targets, hka] using hda
    cases hbinds with
    | bound hm hc => exact howned hm hc htarget
    | element hb _ hkb hab => exact absurd ⟨_, hb, hkb, a, hab, hka, hda⟩ hflat

end Root

/-! ## Parts that stand outside the block of their function -/

/-- The parts of a function that may be evaluated outside its block: the default values of its parameters,
and the body of a bound function if it stands on the same line. -/
def loose (tree : Tree) (n : Node) : List Node :=
  match FunctionView.ofNode? tree n with
  | some v => v.params.filterMap (·.default?) ++
      (v.body.filter fun b => v.isBound && !b.isIndented tree).toList
  | none => []

theorem asked_subset (f : Forest Label) : f.asked tree value n ⊆ f.descendants := by
  induction f generalizing n value with
  | nil => exact fun _ h => h
  | token i rest ih => exact ih
  | node l inside rest ihInside ih =>
    intro d hd
    simp only [Forest.asked, Forest.descendants, mem_append, mem_cons] at hd ⊢
    rcases hd with (hd | hd) | hd
    · split at hd
      · exact Or.inl (mem_singleton.1 hd)
      · cases hd
    · exact Or.inr (Or.inl (ihInside hd))
    · exact Or.inr (Or.inr (ih hd))

/-- A child that is listed as one that may be asked may be asked. -/
theorem asks_of_mem {f : Forest Label} (hids : (f.labels.map Label.id).Nodup) (hc : c ∈ f.nodes)
    (h : c ∈ f.asked tree value n) : asks tree value n c = true := by
  induction f with
  | nil => cases hc
  | token i rest ih => exact ih hids hc h
  | node l inside rest _ ih =>
    simp only [Forest.labels, map_cons, map_append, nodup_cons, mem_append, nodup_append] at hids
    simp only [Forest.asked, mem_append] at h
    rcases h with (h | h) | h
    · split at h
      · rename_i hasks
        rwa [mem_singleton.1 h]
      · cases h
    · have hin := Forest.mem_ids (asked_subset inside h)
      rcases mem_cons.1 hc with rfl | hc
      · exact absurd (Or.inl hin) hids.1
      · exact absurd rfl (hids.2.2.2 _ hin _ (Forest.mem_ids (Forest.mem_descendants hc c.self_mem_descendants)))
    · rcases mem_cons.1 hc with rfl | hc
      · exact absurd (Or.inr (Forest.mem_ids (asked_subset rest h))) hids.1
      · exact ih hids.2.2.1 hc h

/-- The body of a function that is asked for its value is loose. -/
theorem mem_loose_of_asked (hm : m.Sound tree) (hv : FunctionView.ofNode? tree m = some v) (hbody : v.body = some c)
    (h : c ∈ m.asked tree value) : c ∈ loose tree m := by
  obtain ⟨hc, hk, hblock⟩ := mem_children_of_body hv hbody
  have hids := hm.ids
  rw [Node.toForest, Forest.labels, map_cons, nodup_cons, Forest.labels, append_nil] at hids
  have hasks : asks tree value m c = true := by
    refine asks_of_mem hids.2 hc ((mem_append.1 h).resolve_left fun h => ?_)
    split at h
    · rw [mem_singleton.1 h] at hc
      exact hids.1 (Forest.mem_ids (Forest.mem_descendants hc m.self_mem_descendants))
    · cases h
  simp only [asks, hk, hblock, bne_self_eq_false, Bool.false_or, Bool.and_eq_true] at hasks
  obtain ⟨s, hs⟩ := hm.exists_functionShape hk
  cases (hs.view hk).symm.trans hv
  have htokens : m.ownTokens = [s.arrow] := by
    rw [Node.ownTokens_eq hs.items]
    obtain ⟨list, arrow, body⟩ := s
    cases list <;> cases body <;> rfl
  rw [htokens] at hasks
  have hbound : (s.view tree).isBound = true := by simpa [FunctionShape.view] using hasks.2
  rw [loose, hs.view hk]
  refine mem_append_right _ ?_
  rw [hbody, Option.filter_some, if_pos (by simpa [hbound] using hasks.1)]
  exact mem_singleton_self c

/-- What a function needs stands in its own scope. -/
theorem enclosing_functionNodes (h : tree.root.Sound tree) (hm : m ∈ tree.root.descendants)
    (hv : FunctionView.ofNode? tree m = some v) (hc : c ∈ functionNodes v) : tree.enclosing c.id = m.id := by
  rcases mem_append.1 hc with hc | hc
  · obtain ⟨list, hlist, d, hd, hc, hk, hkList, hkParam⟩ := exists_param_of_default hv hc
    have hmemList := Node.descendants_child hm hlist
    have hmemParam := Node.descendants_child hmemList hd
    rw [tree.enclosing_child h.ids hmemParam hc, if_neg (by rw [hkParam]; decide),
      tree.enclosing_child h.ids hmemList hd, if_neg (by rw [hkList]; decide), tree.enclosing_child h.ids hm hlist,
      if_pos hk]
  · obtain ⟨hc, hk, -⟩ := mem_children_of_body hv (Option.mem_toList.1 hc)
    rw [tree.enclosing_child h.ids hm hc, if_pos hk]

end Respell.Javascript
