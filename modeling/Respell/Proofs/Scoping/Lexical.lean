import Respell.Proofs.Grammar.Forms
import Respell.Proofs.Scoping.Claims

/-!
Scopes are lexical.

An identifier is a parameter, it is bound, or it is read; which of these it is can be told from the nodes around it
(`Tree.Parameter`, `Tree.Binds`, `Tree.Reads`), and the walk that builds the scopes comes to the same answer, also in a
tree with faults.  So a scope declares the names of its parameters and of what is bound in it, and an identifier is the
declaration of its name if it is bound and nothing before it in the scopes around it introduces that name
(`Scopes.lexical_ofText`).  The names that are free for a temporary are told the same way (`Claims.fresh_ofRequests`).
-/

namespace Respell

open List Syntax

variable {tree : Tree} {n c d f : Node} {w i : Nat} {x : String} {o o' : Occurrence}

/-! ## Rows -/

/-- A program in which each node has a number of its own and a row of its kind. -/
structure Tree.Formed (tree : Tree) : Prop where
  root : tree.root.kind = .program
  numbered : tree.Numbered
  rows : ∀ n ∈ tree.root.descendants, n.children.map (·.kind) ∈ Form.ofKind n.kind

theorem Parse.formed_tree (text : List Char) : (Parse.ofText text).tree.Formed where
  root := (Parse.root_ofText text).1
  numbered := by
    obtain ⟨f, hf⟩ := Parse.exists_block text
    rw [Tree.Numbered, hf.tree_eq.2.2, (Forest.label_ids _ 0 0).2]
    exact nodup_range'
  rows := Parse.formed_ofText text

namespace Tree.Formed

variable (h : tree.Formed) (hn : n ∈ tree.root.descendants)
include h hn

theorem leaf (hk : Form.ofKind n.kind = 1) : n.children = [] := by
  have hrow := h.rows n hn
  rw [hk] at hrow
  exact map_eq_nil_iff.1 hrow

theorem ne_program (hc : c ∈ n.children) : c.kind ≠ .program := by
  have hnested := Form.ofKind_le_nested _ (h.rows n hn)
  rintro hk
  exact hnested (hk ▸ mem_map_of_mem (f := fun c : Node => c.kind) hc)

/-- The children of a function are its parameters and its body. -/
theorem function_children (hk : n.kind = .function) : ∃ params body : Option Node,
    n.children = params.toList ++ body.toList ∧ (∀ p ∈ params, p.kind = .paramList) ∧ ∀ b ∈ body, b.kind = .block := by
  have hatMost {k : Kind} {cs : List Node} (hcs : cs.map (·.kind) ∈ Form.atMost k) :
      ∃ c : Option Node, cs = c.toList ∧ ∀ d ∈ c, d.kind = k := by
    rcases hcs with hcs | hcs
    · exact ⟨none, map_eq_nil_iff.1 hcs, by simp⟩
    · obtain ⟨c, rest, rfl, hc, hrest⟩ := map_eq_cons_iff.1 hcs
      obtain rfl := map_eq_nil_iff.1 hrest
      exact ⟨some c, rfl, by simpa using hc⟩
  have hrow := h.rows n hn
  rw [hk] at hrow
  obtain ⟨ks, hks, ks', hks', heq⟩ := hrow
  obtain ⟨cs, cs', hcs, rfl, rfl⟩ := map_eq_append_iff.1 heq.symm
  obtain ⟨params, rfl, hparams⟩ := hatMost hks
  obtain ⟨body, rfl, hbody⟩ := hatMost hks'
  exact ⟨params, body, hcs, hparams, hbody⟩

/-- The view of a function has its list of parameters. -/
theorem paramList_eq (hk : n.kind = .function) (hc : c ∈ n.children) (hkc : c.kind = .paramList) {v : FunctionView}
    (hv : FunctionView.ofNode? tree n = some v) : v.paramList = some c := by
  obtain ⟨params, body, hchildren, hparams, hbody⟩ := h.function_children hn hk
  rw [FunctionView.ofNode?, if_pos hk, Option.some.injEq] at hv
  subst hv
  show n.children.find? _ = some c
  cases params with
  | none =>
    have hb := hbody c (by simpa [hchildren] using hc)
    cases hb.symm.trans hkc
  | some p =>
    have hp := hparams p rfl
    have hcp : c = p ∨ c ∈ body := by simpa [hchildren] using hc
    rcases hcp with rfl | hcb
    · simp [hchildren, hkc]
    · cases (hbody c hcb).symm.trans hkc

theorem params_kind (hk : n.kind = .paramList) (hc : c ∈ n.children) : isParameter c.kind = true ∨ c.kind = .error := by
  have hrow := h.rows n hn
  rw [hk] at hrow
  exact hrow c.kind (mem_map_of_mem hc)

/-- A parameter with a default value binds a name and has at most one node behind it. -/
theorem defaultParam_children (hk : n.kind = .defaultParam) : ∃ (b : Node) (value : Option Node),
    n.children = b :: value.toList ∧ isName b.kind = true := by
  have hrow := h.rows n hn
  rw [hk] at hrow
  obtain ⟨_, ⟨k, hname, rfl⟩, ks, hks, heq⟩ := hrow
  obtain ⟨cs, cs', hcs, hk, rfl⟩ := map_eq_append_iff.1 heq.symm
  obtain ⟨b, rest, rfl, hb, hrest⟩ := map_eq_cons_iff.1 hk
  obtain rfl := map_eq_nil_iff.1 hrest
  have hlength := hks.2
  rw [length_map] at hlength
  refine ⟨b, cs'.head?, ?_, hb ▸ hname⟩
  rw [hcs]
  match cs', hlength with
  | [], _ => rfl
  | [c], _ => rfl

theorem assign_length (hk : n.kind = .assign ∨ n.kind = .existsAssign) : n.children.length ≤ 2 := by
  have hrow := h.rows n hn
  have hkind : Form.ofKind n.kind = Form.single * Form.single := by
    rcases hk with hk | hk <;> rw [hk] <;> rfl
  rw [hkind] at hrow
  obtain ⟨ks, hks, ks', hks', heq⟩ := hrow
  have hlength := congrArg List.length heq
  rw [length_append, length_map] at hlength
  have := hks.2
  have := hks'.2
  omega

end Tree.Formed

/-! ## Occurrences of children -/

namespace Forest

variable {roleOf : Nat → Label → Role} {chain : List Nat} {place : Nat} {g : Forest Label}

theorem occurs_node (hc : g.nodes[i]? = some c) :
    ⟨c, roleOf (place + i) c.toLabel, chain⟩ ∈ g.occurrences tree roleOf chain place := by
  induction g generalizing i place with
  | nil => cases hc
  | token j rest ih => exact ih hc
  | node l inside rest _ ih =>
    cases i with
    | zero =>
      cases hc
      exact mem_cons_self
    | succ i =>
      rw [← Nat.add_assoc, Nat.add_right_comm]
      exact mem_cons_of_mem _ (mem_append_right _ (ih hc))

/-- Where a node occurs, its children do. -/
theorem occurs_child (ho : o ∈ g.occurrences tree roleOf chain place) (hc : o.node.children[i]? = some c) :
    ⟨c, Role.ofChild tree o.node o.role i c.toLabel, o.node.toLabel.innerChain o.chain⟩ ∈
      g.occurrences tree roleOf chain place := by
  induction g generalizing roleOf chain place with
  | nil => cases ho
  | token j rest ih => exact ih ho
  | node l inside rest ihInside ih =>
    simp only [occurrences, mem_cons, mem_append] at ho ⊢
    rcases ho with rfl | ho | ho
    · refine Or.inr (Or.inl ?_)
      rw [← Nat.zero_add i]
      exact occurs_node hc
    · exact Or.inr (Or.inl (ihInside ho))
    · exact Or.inr (Or.inr (ih ho))

end Forest

namespace Tree

theorem occurs_child (ho : o ∈ tree.occurrences) (hc : o.node.children[i]? = some c) :
    ⟨c, Role.ofChild tree o.node o.role i c.toLabel, o.node.toLabel.innerChain o.chain⟩ ∈ tree.occurrences :=
  Forest.occurs_child ho hc

/-- Every node but the root occurs. -/
theorem exists_occurrence (hn : n ∈ tree.root.descendants) : n = tree.root ∨ ∃ o ∈ tree.occurrences, o.node = n := by
  rw [Node.descendants_eq] at hn
  refine (mem_cons.1 hn).imp_right fun hn => ?_
  rw [← Forest.occurrences_node] at hn
  exact mem_map.1 hn

/-- No node occurs twice. -/
theorem occurrences_nodup (h : tree.Numbered) : (tree.occurrences.map (·.node.id)).Nodup := by
  rw [Numbered, ← Forest.descendants_toLabel, map_map] at h
  have hinside : (tree.root.elements.descendants.map (·.id)).Nodup := by
    simp only [Node.toForest, Forest.descendants, append_nil, map_cons] at h
    exact (nodup_cons.1 h).2
  rwa [← Forest.occurrences_node, map_map] at hinside

theorem occurrence_unique (h : tree.Numbered) (ho : o ∈ tree.occurrences) (ho' : o' ∈ tree.occurrences)
    (hnode : o.node = o'.node) : o = o' :=
  inj_on_of_nodup_map (occurrences_nodup h) ho ho' (congrArg (·.id) hnode)

end Tree

/-! ## Roles -/

/-- What the role of a node says about its kind. -/
structure Role.Suits (role : Role) (k : Kind) : Prop where
  spoken : role ≠ .silent
  params : role = .params → k = .paramList
  param : role = .param → isParameter k = true ∨ k = .error

theorem Role.suits_read (k : Kind) : Role.read.Suits k := ⟨by decide, by simp, by simp⟩

theorem Role.suits_bind (k : Kind) : Role.bind.Suits k := ⟨by decide, by simp, by simp⟩

variable {role : Role}

/-- The role of a child suits its kind, in a tree with rows of the right kinds. -/
theorem Tree.Formed.suits_child (h : tree.Formed) (hn : n ∈ tree.root.descendants) (hrole : role.Suits n.kind)
    (hc : n.children[i]? = some c) : (Role.ofChild tree n role i c.toLabel).Suits c.kind := by
  have hmem := mem_of_getElem? hc
  have hlt := (List.getElem?_eq_some_iff.1 hc).1
  generalize hchild : Role.ofChild tree n role i c.toLabel = r
  cases Role.handed hchild with
  | read => exact Role.suits_read _
  | element | target | binding => exact Role.suits_bind _
  | params _ hk => exact ⟨by decide, fun _ => hk, by simp⟩
  | param hparams => exact ⟨by decide, by simp, fun _ => h.params_kind hn (hrole.params hparams) hmem⟩
  | default _ hk hfirst =>
    obtain ⟨b, value, hchildren, hb⟩ := h.defaultParam_children hn hk
    obtain rfl : b = c := by simpa [hchildren, hfirst] using hc
    refine ⟨by decide, by simp, fun _ => Or.inl ?_⟩
    unfold isParameter
    split
    · rfl
    · exact hb
  | silence hsilent => exact absurd hsilent hrole.spoken
  | member hk hparams hbody =>
    obtain ⟨params, body, hchildren, hparam, hblock⟩ := h.function_children hn hk
    have : c ∈ params ∨ c ∈ body := by simpa [hchildren] using hmem
    exact (this.elim (fun hc => hparams (hparam c hc)) fun hc => hbody (hblock c hc)).elim
  | operand hk hplace => exact absurd (h.assign_length hn hk) (by omega)
  | part hrole' hplace =>
    by_cases hk : n.kind = .defaultParam
    · obtain ⟨b, value, hchildren, -⟩ := h.defaultParam_children hn hk
      have hlength : value.toList.length ≤ 1 := by cases value <;> simp
      rw [hchildren, length_cons] at hlt
      have := hplace hk
      omega
    · -- What a parameter without a default value is made of has no children.
      have hleaf : Form.ofKind n.kind = 1 := by
        rcases hrole.param hrole' with hparam | herror
        · generalize n.kind = k at hparam hk
          cases k <;> first | rfl | exact absurd rfl hk | cases hparam
        · rw [herror]
          rfl
      rw [h.leaf hn hleaf] at hmem
      cases hmem

theorem Tree.Formed.suits (h : tree.Formed) (ho : o ∈ tree.occurrences) : o.role.Suits o.node.kind := by
  refine (Tree.forall_occurrences (P := fun n role _ => n ∈ tree.root.descendants ∧ role.Suits n.kind) ?_ ?_ o ho).2
  · rintro n role _ ⟨hn, hrole⟩ i c hc
    exact ⟨Node.descendants_child hn (mem_of_getElem? hc), h.suits_child hn hrole hc⟩
  · exact fun c hc => ⟨Node.descendants_child tree.root.self_mem_descendants hc, Role.suits_read _⟩

/-- A node that is neither a list of parameters nor a parameter is read or bound. -/
theorem Tree.Formed.read_or_bind (h : tree.Formed) (ho : o ∈ tree.occurrences) (hparams : o.node.kind ≠ .paramList)
    (hparam : isParameter o.node.kind = false) (herror : o.node.kind ≠ .error) : o.role = .read ∨ o.role = .bind := by
  have hsuits := h.suits ho
  cases hrole : o.role with
  | read => exact Or.inl rfl
  | bind => exact Or.inr rfl
  | params => exact absurd (hsuits.params hrole) hparams
  | silent => exact absurd hrole hsuits.spoken
  | param =>
    rcases hsuits.param hrole with hk | hk
    · rw [hparam] at hk
      cases hk
    · exact absurd hk herror

/-! ## Bound identifiers -/

variable {l : Label}

theorem Role.ofChild_array (hk : n.kind = .array) (hrole : role = .read ∨ role = .bind) :
    Role.ofChild tree n role i l = role := by
  rcases hrole with rfl | rfl <;> simp [Role.ofChild, hk]

/-- What a node binds, it gives the role of being bound. -/
theorem Role.ofChild_of_boundIn (hrole : role = .read ∨ role = .bind) (hc : c ∈ boundIn tree n) :
    ∃ i, n.children[i]? = some c ∧ Role.ofChild tree n role i c.toLabel = .bind := by
  by_cases hassign : n.kind = .assign ∨ n.kind = .existsAssign
  · rw [boundIn_of_assign hassign, Option.mem_toList, head?_eq_getElem?] at hc
    refine ⟨0, hc, ?_⟩
    rcases hrole with rfl | rfl <;> rcases hassign with hk | hk <;> simp [Role.ofChild, hk]
  · by_cases hloop : n.kind = .forExpr
    · obtain ⟨i, hi⟩ := mem_iff_getElem?.1 (mem_children_of_boundIn hc)
      obtain ⟨v, hv⟩ : ∃ v, LoopView.ofNode? tree n = some v := ⟨_, if_pos hloop⟩
      rw [boundIn_of_loop hv] at hc
      have hid := mem_map_of_mem (f := fun c : Node => c.id) hc
      refine ⟨i, hi, ?_⟩
      rcases hrole with rfl | rfl <;> simp only [Role.ofChild, hloop, hv, Option.elim_some, if_pos hid]
    · rw [boundIn_of_ne hassign hloop] at hc
      cases hc

/-- A node occurs bound if and only if it is. -/
theorem Tree.Formed.role_eq_bind_iff (h : tree.Formed) (ho : o ∈ tree.occurrences) :
    o.role = .bind ↔ tree.Binds o.node := by
  refine ⟨Tree.binds_of_role h.numbered ho, fun hbinds => ?_⟩
  have hall : ∀ c, tree.Binds c → ∃ o ∈ tree.occurrences, o.node = c ∧ o.role = .bind := by
    intro c hbinds
    induction hbinds with
    | @bound n c hn hc =>
      rcases Tree.exists_occurrence hn with rfl | ⟨o, ho, rfl⟩
      · rw [boundIn_of_ne (by rw [h.root]; decide) (by rw [h.root]; decide)] at hc
        cases hc
      · have hkind : o.node.kind = .assign ∨ o.node.kind = .existsAssign ∨ o.node.kind = .forExpr := by
          by_contra hne
          simp only [not_or] at hne
          rw [boundIn_of_ne (by simp [hne.1, hne.2.1]) hne.2.2] at hc
          cases hc
        have hrole : o.role = .read ∨ o.role = .bind := by
          rcases hkind with hk | hk | hk <;>
            exact h.read_or_bind ho (by rw [hk]; decide) (by rw [hk]; decide) (by rw [hk]; decide)
        obtain ⟨i, hi, hbind⟩ := Role.ofChild_of_boundIn hrole hc
        exact ⟨_, Tree.occurs_child ho hi, rfl, hbind⟩
    | element hn _ hk hc ih =>
      obtain ⟨o, ho, rfl, hrole⟩ := ih
      obtain ⟨i, hi⟩ := mem_iff_getElem?.1 hc
      exact ⟨_, Tree.occurs_child ho hi, rfl, (Role.ofChild_array hk (Or.inr hrole)).trans hrole⟩
  obtain ⟨o', ho', hnode, hrole⟩ := hall _ hbinds
  rw [Tree.occurrence_unique h.numbered ho ho' hnode.symm]
  exact hrole

/-! ## Parameters -/

/-- The node is what a parameter of the function binds. -/
def Tree.Parameter (tree : Tree) (f c : Node) : Prop :=
  ∃ v, FunctionView.ofNode? tree f = some v ∧ ∃ p ∈ v.params, p.binding = c

theorem Label.innerChain_of_ne (hk : l.kind ≠ .function) (chain : List Nat) : l.innerChain chain = chain :=
  if_neg hk

/-- Where the parameters of a function occur. -/
structure Tree.InParams (tree : Tree) (f list : Node) (chain : List Nat) : Prop where
  node : f ∈ tree.root.descendants
  kind : f.kind = .function
  child : list ∈ f.children
  scope : chain.head? = some f.id

theorem Tree.Formed.inParams (h : tree.Formed) (ho : o ∈ tree.occurrences) :
    (o.role = .params → ∃ f, tree.InParams f o.node o.chain) ∧
      (o.role = .param → ∃ f list, tree.InParams f list o.chain ∧ list.kind = .paramList ∧
        (o.node ∈ list.children ∨ ∃ p ∈ list.children, p.kind = .defaultParam ∧ p.children[0]? = some o.node)) := by
  refine (Tree.forall_occurrences (P := fun n role chain => (n ∈ tree.root.descendants ∧ role.Suits n.kind) ∧
    (role = .params → ∃ f, tree.InParams f n chain) ∧ (role = .param → ∃ f list, tree.InParams f list chain ∧
      list.kind = .paramList ∧ (n ∈ list.children ∨
        ∃ p ∈ list.children, p.kind = .defaultParam ∧ p.children[0]? = some n))) ?_ ?_ o ho).2
  · rintro n role chain ⟨⟨hn, hrole⟩, hlist, hparam⟩ i c hc
    have hmem := mem_of_getElem? hc
    refine ⟨⟨Node.descendants_child hn hmem, h.suits_child hn hrole hc⟩, fun hchild => ?_, fun hchild => ?_⟩
    · cases Role.handed hchild with
      | params hk => exact ⟨n, hn, hk, hmem, by rw [Label.innerChain, if_pos hk]; rfl⟩
    · cases Role.handed hchild with
      | param heq =>
        have hk := hrole.params heq
        obtain ⟨f, hf⟩ := hlist heq
        rw [Label.innerChain_of_ne (by rw [hk]; decide)]
        exact ⟨f, n, hf, hk, Or.inl hmem⟩
      | default heq hk hplace =>
        subst hplace
        rw [Label.innerChain_of_ne (by rw [hk]; decide)]
        obtain ⟨f, list, hf, hklist, hn' | ⟨p, hp, hkp, hfirst⟩⟩ := hparam heq
        · exact ⟨f, list, hf, hklist, Or.inr ⟨n, hn', hk, hc⟩⟩
        · -- What stands in front of a default value is a name.
          have hpd := Node.descendants_child (Node.descendants_child hf.node hf.child) hp
          obtain ⟨b, value, hchildren, hb⟩ := h.defaultParam_children hpd hkp
          rw [hchildren] at hfirst
          obtain rfl : b = n := by simpa using hfirst
          rw [hk] at hb
          cases hb
  · exact fun c hc => ⟨⟨Node.descendants_child tree.root.self_mem_descendants hc, Role.suits_read _⟩, by simp, by simp⟩

/-- What occurs as a parameter is one. -/
theorem Tree.Formed.parameter_of_role (h : tree.Formed) (ho : o ∈ tree.occurrences) (hrole : o.role = .param)
    (hk : o.node.kind ≠ .defaultParam) :
    ∃ f ∈ tree.root.descendants, tree.Parameter f o.node ∧ o.chain.head? = some f.id := by
  obtain ⟨f, list, hf, hklist, hin⟩ := (h.inParams ho).2 hrole
  obtain ⟨v, hv⟩ : ∃ v, FunctionView.ofNode? tree f = some v := ⟨_, if_pos hf.kind⟩
  have hlist := h.paramList_eq hf.node hf.kind hf.child hklist hv
  have hparams : v.params = list.children.map ParamView.ofNode := by rw [FunctionView.params, hlist]
  refine ⟨f, hf.node, ⟨v, hv, ?_⟩, hf.scope⟩
  rw [hparams]
  rcases hin with hin | ⟨p, hp, hkp, hfirst⟩
  · exact ⟨_, mem_map_of_mem hin, by rw [ParamView.ofNode, if_neg hk]⟩
  · refine ⟨_, mem_map_of_mem hp, ?_⟩
    rw [ParamView.ofNode, if_pos hkp]
    exact congrArg (Option.getD · p) hfirst

/-- A parameter of a function occurs as such, in the scope of the function. -/
theorem Tree.Formed.role_of_parameter (h : tree.Formed) (hf : f ∈ tree.root.descendants) (hp : tree.Parameter f c) :
    ∃ o ∈ tree.occurrences, o.node = c ∧ o.role = .param ∧ o.chain.head? = some f.id := by
  obtain ⟨v, hv, p, hp, rfl⟩ := hp
  have hk : f.kind = .function := by
    by_contra hk
    rw [FunctionView.ofNode?, if_neg hk] at hv
    cases hv
  obtain ⟨o, ho, rfl⟩ : ∃ o ∈ tree.occurrences, o.node = f := by
    refine (Tree.exists_occurrence hf).resolve_left ?_
    rintro rfl
    cases hk.symm.trans h.root
  have hrole := h.read_or_bind ho (by rw [hk]; decide) (by rw [hk]; decide) (by rw [hk]; decide)
  cases hlist : v.paramList with
  | none =>
    rw [FunctionView.params, hlist] at hp
    cases hp
  | some list =>
    rw [FunctionView.params, hlist] at hp
    obtain ⟨q, hq, rfl⟩ := mem_map.1 hp
    have hfind : o.node.children.find? (fun c => c.kind == .paramList) = some list := by
      rw [FunctionView.ofNode?, if_pos hk, Option.some.injEq] at hv
      rw [← hlist, ← hv]
    have hklist : list.kind = .paramList := by simpa using find?_some hfind
    -- From the function to the list, to the parameter, and to what it binds.
    obtain ⟨i, hi⟩ := mem_iff_getElem?.1 (mem_of_find?_eq_some hfind)
    have hlistOcc := Tree.occurs_child ho hi
    rw [show Role.ofChild tree o.node o.role i list.toLabel = .params by
        rcases hrole with hrole | hrole <;> simp [Role.ofChild, hrole, hk, hklist],
      show o.node.toLabel.innerChain o.chain = o.node.id :: o.chain from if_pos hk] at hlistOcc
    obtain ⟨j, hj⟩ := mem_iff_getElem?.1 hq
    have hparamOcc := Tree.occurs_child hlistOcc hj
    rw [Label.innerChain_of_ne (by rw [hklist]; decide)] at hparamOcc
    by_cases hkq : q.kind = .defaultParam
    · have hqd := Tree.node_mem hparamOcc
      obtain ⟨b, value, hchildren, -⟩ := h.defaultParam_children hqd hkq
      have hfirst : q.children[0]? = some b := by rw [hchildren]; rfl
      have hfirstOcc := Tree.occurs_child hparamOcc hfirst
      rw [Label.innerChain_of_ne (by rw [hkq]; decide)] at hfirstOcc
      refine ⟨_, hfirstOcc, ?_, by simp [Role.ofChild, hkq], rfl⟩
      rw [ParamView.ofNode, if_pos hkq, hfirst]
      rfl
    · exact ⟨_, hparamOcc, by rw [ParamView.ofNode, if_neg hkq], rfl, rfl⟩

/-! ## Names in the tree -/

/-- The identifier introduces its name in scope `w`: it is a parameter of the function, or it is bound there. -/
structure Tree.Introduces (tree : Tree) (w : Nat) (c : Node) : Prop where
  node : c ∈ tree.root.descendants
  ident : c.kind = .ident
  how : (∃ f ∈ tree.root.descendants, f.id = w ∧ tree.Parameter f c) ∨ (tree.Binds c ∧ tree.enclosing c.id = w)

/-- The identifier is neither bound nor a parameter, so it is read. -/
structure Tree.Reads (tree : Tree) (c : Node) : Prop where
  node : c ∈ tree.root.descendants
  ident : c.kind = .ident
  unbound : ¬ tree.Binds c
  noParameter : ∀ f ∈ tree.root.descendants, ¬ tree.Parameter f c

namespace Tree.Formed

variable (h : tree.Formed)
include h

theorem root_ne_function : tree.root.kind ≠ .function := by
  rw [h.root]
  decide

theorem introduces_iff (ho : o ∈ tree.occurrences) :
    (o.node.kind = .ident ∧ (o.role = .bind ∨ o.role = .param) ∧ o.chain.head? = some w) ↔
      tree.Introduces w o.node := by
  constructor
  · rintro ⟨hk, hrole | hrole, hw⟩
    · refine ⟨Tree.node_mem ho, hk, Or.inr ⟨(h.role_eq_bind_iff ho).1 hrole, ?_⟩⟩
      exact Option.some.inj ((Tree.chain_head? h.numbered h.root_ne_function ho).symm.trans hw)
    · obtain ⟨f, hf, hparam, hscope⟩ := h.parameter_of_role ho hrole (by rw [hk]; decide)
      exact ⟨Tree.node_mem ho, hk, Or.inl ⟨f, hf, Option.some.inj (hscope.symm.trans hw), hparam⟩⟩
  · rintro ⟨-, hk, ⟨f, hf, rfl, hparam⟩ | ⟨hbinds, rfl⟩⟩
    · obtain ⟨o', ho', hnode, hrole, hscope⟩ := h.role_of_parameter hf hparam
      rw [Tree.occurrence_unique h.numbered ho ho' hnode.symm] at hk ⊢
      exact ⟨hk, Or.inr hrole, hscope⟩
    · exact ⟨hk, Or.inl ((h.role_eq_bind_iff ho).2 hbinds), Tree.chain_head? h.numbered h.root_ne_function ho⟩

theorem reads_iff (ho : o ∈ tree.occurrences) : (o.node.kind = .ident ∧ o.role = .read) ↔ tree.Reads o.node := by
  constructor
  · rintro ⟨hk, hrole⟩
    refine ⟨Tree.node_mem ho, hk, fun hbinds => ?_, fun f hf hparam => ?_⟩
    · cases hrole.symm.trans ((h.role_eq_bind_iff ho).2 hbinds)
    · obtain ⟨o', ho', hnode, hrole', -⟩ := h.role_of_parameter hf hparam
      rw [Tree.occurrence_unique h.numbered ho ho' hnode.symm] at hrole
      cases hrole.symm.trans hrole'
  · rintro ⟨-, hk, hunbound, hparam⟩
    refine ⟨hk, ?_⟩
    have hsuits := h.suits ho
    cases hrole : o.role with
    | read => rfl
    | bind => exact absurd ((h.role_eq_bind_iff ho).1 hrole) hunbound
    | silent => exact absurd hrole hsuits.spoken
    | params => cases hk.symm.trans (hsuits.params hrole)
    | param =>
      obtain ⟨f, hf, hp, -⟩ := h.parameter_of_role ho hrole (by rw [hk]; decide)
      exact absurd hp (hparam f hf)

theorem exists_occurrence_of_ident (hc : c ∈ tree.root.descendants) (hk : c.kind = .ident) :
    ∃ o ∈ tree.occurrences, o.node = c := by
  refine (Tree.exists_occurrence hc).resolve_left ?_
  rintro rfl
  cases hk.symm.trans h.root

theorem readIn_iff : tree.ReadIn tree.occurrences x ↔ ∃ c, tree.Reads c ∧ tree.nodeText c = x := by
  constructor
  · rintro ⟨o, ho, hk, hrole, htext⟩
    exact ⟨o.node, (h.reads_iff ho).1 ⟨hk, hrole⟩, htext⟩
  · rintro ⟨c, hreads, htext⟩
    obtain ⟨o, ho, rfl⟩ := h.exists_occurrence_of_ident hreads.node hreads.ident
    obtain ⟨hk, hrole⟩ := (h.reads_iff ho).2 hreads
    exact ⟨o, ho, hk, hrole, htext⟩

theorem declaredIn_iff : tree.DeclaredIn tree.occurrences w x ↔ ∃ c, tree.Introduces w c ∧ tree.nodeText c = x := by
  constructor
  · rintro ⟨o, ho, hk, hrole, hw, htext⟩
    exact ⟨o.node, (h.introduces_iff ho).1 ⟨hk, hrole, hw⟩, htext⟩
  · rintro ⟨c, hintro, htext⟩
    obtain ⟨o, ho, rfl⟩ := h.exists_occurrence_of_ident hintro.node hintro.ident
    obtain ⟨hk, hrole, hw⟩ := (h.introduces_iff ho).2 hintro
    exact ⟨o, ho, hk, hrole, hw, htext⟩

/-- A free name is that of no identifier which is read, or which is introduced in a scope from `w` outwards. -/
theorem free_iff {given : List (Nat × String)} : tree.Free given w x ↔
    (∀ c, tree.Reads c → tree.nodeText c ≠ x) ∧
    ∀ v ∈ tree.scopeChain w, (∀ c, tree.Introduces v c → tree.nodeText c ≠ x) ∧ (v, x) ∉ given := by
  constructor
  · rintro ⟨hunread, hundeclared, hgiven⟩
    rw [h.readIn_iff] at hunread
    refine ⟨fun c hreads htext => hunread ⟨c, hreads, htext⟩, fun v hv => ⟨fun c hintro htext => ?_, hgiven v hv⟩⟩
    exact hundeclared v hv (h.declaredIn_iff.2 ⟨c, hintro, htext⟩)
  · rintro ⟨hunread, hscopes⟩
    refine ⟨fun hread => ?_, fun v hv hdeclared => ?_, fun v hv => (hscopes v hv).2⟩
    · obtain ⟨c, hreads, htext⟩ := h.readIn_iff.1 hread
      exact hunread c hreads htext
    · obtain ⟨c, hintro, htext⟩ := h.declaredIn_iff.1 hdeclared
      exact (hscopes v hv).1 c hintro htext

end Tree.Formed

/-- Parents come before their children, and children in order. -/
def Tree.Precedes (tree : Tree) (d c : Node) : Prop :=
  ∃ front back, tree.root.descendants = front ++ c :: back ∧ d ∈ front

/-- Of two nodes one comes first. -/
theorem Tree.precedes_total (hc : c ∈ tree.root.descendants) (hd : d ∈ tree.root.descendants) :
    c = d ∨ tree.Precedes c d ∨ tree.Precedes d c := by
  obtain ⟨front, back, hsplit⟩ := append_of_mem hc
  rw [hsplit] at hd
  rcases mem_append.1 hd with hd | hd
  · exact Or.inr (Or.inr ⟨front, back, hsplit, hd⟩)
  · rcases mem_cons.1 hd with rfl | hd
    · exact Or.inl rfl
    · obtain ⟨front', back', rfl⟩ := append_of_mem hd
      exact Or.inr (Or.inl ⟨front ++ c :: front', back', by simp [hsplit], by simp⟩)

/-- The occurrences before another one are those of the nodes that precede its node. -/
theorem Tree.Formed.declaredIn_before (h : tree.Formed) {before after : List Occurrence}
    (hsplit : tree.occurrences = before ++ o :: after) : tree.DeclaredIn before w x ↔
      ∃ d, tree.Precedes d o.node ∧ tree.Introduces w d ∧ tree.nodeText d = x := by
  have hall : tree.root.descendants =
      (tree.root :: before.map Occurrence.node) ++ o.node :: after.map Occurrence.node := by
    rw [Node.descendants_eq, ← Forest.occurrences_node, ← Tree.occurrences, hsplit]
    simp
  have hnodup : tree.root.descendants.Nodup := by
    have := h.numbered
    rw [Tree.Numbered, ← Forest.descendants_toLabel, map_map] at this
    exact this.of_map _
  constructor
  · rintro ⟨o', ho', hk, hrole, hw, htext⟩
    have hmem : o' ∈ tree.occurrences := hsplit ▸ mem_append_left _ ho'
    refine ⟨o'.node, ⟨_, _, hall, mem_cons_of_mem _ (mem_map_of_mem ho')⟩, ?_, htext⟩
    exact (h.introduces_iff hmem).1 ⟨hk, hrole, hw⟩
  · rintro ⟨d, ⟨front, back, hfront, hd⟩, hintro, htext⟩
    -- The node stands in one place of the order, so there is one list in front of it.
    have hout {l r : List Node} (hlr : tree.root.descendants = l ++ o.node :: r) : o.node ∉ l ∧ o.node ∉ r := by
      rw [hlr, nodup_append, nodup_cons] at hnodup
      exact ⟨fun hl => hnodup.2.2 _ hl _ mem_cons_self rfl, hnodup.2.1.1⟩
    obtain ⟨rfl, -, -⟩ := (append_cons_inj_of_notMem (hout hfront).1 (hout hfront).2).1 (hfront.symm.trans hall)
    rcases mem_cons.1 hd with rfl | hd
    · cases hintro.ident.symm.trans h.root
    · obtain ⟨o', ho', rfl⟩ := mem_map.1 hd
      obtain ⟨hk, hrole, hw⟩ := (h.introduces_iff (hsplit ▸ mem_append_left _ ho')).2 hintro
      exact ⟨o', ho', hk, hrole, hw, htext⟩

/-! ## Scopes -/

theorem Tree.scopeChain_root : tree.scopeChain tree.root.id = [tree.root.id] := by
  rw [Tree.scopeChain, Tree.chainIn?, if_pos rfl]
  rfl

namespace Tree.Formed

variable (h : tree.Formed)
include h

theorem isScope_eq (ho : o ∈ tree.occurrences) : o.isScope = (o.node.kind == .function) := by
  by_cases hk : o.node.kind = .function
  · rcases h.read_or_bind ho (by rw [hk]; decide) (by rw [hk]; decide) (by rw [hk]; decide) with hrole | hrole <;>
      simp [Occurrence.isScope, hk, hrole]
  · simp [Occurrence.isScope, hk]

theorem scopeChain_function (ho : o ∈ tree.occurrences) (hk : o.node.kind = .function) :
    tree.scopeChain o.node.id = o.node.id :: o.chain := by
  have hroot : o.node.id ≠ tree.root.id := fun hid => by
    have := Node.eq_of_id h.numbered (Tree.node_mem ho) tree.root.self_mem_descendants hid
    exact h.root_ne_function (this ▸ hk)
  rw [Tree.scopeChain, Tree.chainIn?, if_neg hroot]
  cases hfind : tree.occurrences.find? fun o' => o'.isScope && o'.node.id == o.node.id with
  | none =>
    have := find?_eq_none.1 hfind o ho
    simp [h.isScope_eq ho, hk] at this
  | some o' =>
    have hmem := mem_of_find?_eq_some hfind
    have hid := find?_some hfind
    simp only [Bool.and_eq_true, beq_iff_eq] at hid
    have hnode := Node.eq_of_id h.numbered (Tree.node_mem hmem) (Tree.node_mem ho) hid.2
    rw [Tree.occurrence_unique h.numbered hmem ho hnode]
    rfl

/-- The scopes that a node occurs in are the one around it and those around that. -/
theorem chain_eq_scopeChain (ho : o ∈ tree.occurrences) : o.chain = tree.scopeChain (tree.enclosing o.node.id) := by
  refine (Tree.forall_occurrences (P := fun n role chain => (∃ o ∈ tree.occurrences, o.node = n ∧ o.role = role ∧
    o.chain = chain) ∧ chain = tree.scopeChain (tree.enclosing n.id)) ?_ ?_ o ho).2
  · rintro _ _ _ ⟨⟨o, ho, rfl, rfl, rfl⟩, hchain⟩ i c hc
    refine ⟨⟨_, Tree.occurs_child ho hc, rfl, rfl, rfl⟩, ?_⟩
    rw [Tree.enclosing_child h.numbered (Tree.node_mem ho) (mem_of_getElem? hc), Label.innerChain]
    split
    · exact (h.scopeChain_function ho ‹_›).symm
    · exact hchain
  · intro c hc
    obtain ⟨i, hi⟩ := mem_iff_getElem?.1 hc
    refine ⟨⟨_, Forest.occurs_node hi, rfl, rfl, rfl⟩, ?_⟩
    rw [Tree.enclosing_child h.numbered tree.root.self_mem_descendants hc, if_neg h.root_ne_function, Tree.enclosing,
      Tree.ancestors_root h.numbered]
    exact Tree.scopeChain_root.symm

/-- The scope around a node is the first of its scopes. -/
theorem enclosing_mem_scopeChain (ho : o ∈ tree.occurrences) :
    tree.enclosing o.node.id ∈ tree.scopeChain (tree.enclosing o.node.id) := by
  rw [← h.chain_eq_scopeChain ho]
  exact mem_of_mem_head? (Tree.chain_head? h.numbered h.root_ne_function ho)

end Tree.Formed

namespace Scopes

variable {s : Scopes} {seen os : List Occurrence}

theorem owners_see (tree : Tree) (s : Scopes) (o : Occurrence) :
    (see tree s o).scopes.map (·.owner) = s.scopes.map (·.owner) ++ if o.isScope then [o.node.id] else [] := by
  have hdeclare (s : Scopes) (w : Nat) (x : String) :
      (s.declare w x).scopes.map (·.owner) = s.scopes.map (·.owner) := by
    rw [declare, modify, map_map]
    refine map_congr_left fun c _ => ?_
    simp only [Function.comp]
    split <;> rfl
  unfold see
  extract_lets owner name s₁
  split
  · simp [Occurrence.isScope, *]
  · have hs₁ : s₁.scopes = s.scopes := by
      show (if _ then s else _ : Scopes).scopes = _
      split <;> rfl
    rw [hdeclare, hs₁]
    simp [Occurrence.isScope, *]
  · rw [hdeclare]
    simp [Occurrence.isScope, *]
  iterate 2 simp [Occurrence.isScope, *]
  · rename_i h₁ h₂ h₃ h₄ h₅
    have hscope : o.isScope = false := by simpa [Occurrence.isScope] using fun hk => And.intro (h₄ hk) (h₅ hk)
    simp [hscope]

theorem owners_foldl (os : List Occurrence) (s : Scopes) :
    (os.foldl (see tree) s).scopes.map (·.owner) =
      s.scopes.map (·.owner) ++ (os.filter (·.isScope)).map (·.node.id) := by
  induction os generalizing s with
  | nil => simp
  | cons o os ih =>
    rw [foldl_cons, ih, owners_see, filter_cons]
    cases o.isScope <;> simp

/-- A name is declared in a scope if one of the occurrences declares it there or further out. -/
theorem Holds.isDeclared_iff (h : Holds tree seen s) (hopen : ∀ v ∈ s.chain w, (s.scope? v).isSome) :
    s.isDeclared w x = true ↔ ∃ v ∈ s.chain w, tree.DeclaredIn seen v x := by
  simp only [isDeclared, any_eq_true, around, mem_filterMap, contains_iff_mem]
  constructor
  · rintro ⟨c, ⟨v, hv, hc⟩, hx⟩
    exact ⟨v, hv, (h.declared v c hc x).1 hx⟩
  · rintro ⟨v, hv, hx⟩
    obtain ⟨c, hc⟩ := Option.isSome_iff_exists.1 (hopen v hv)
    exact ⟨c, ⟨v, hv, hc⟩, (h.declared v c hc x).2 hx⟩

theorem declarations_see (hw : o.chain.head? = some w) : (see tree s o).declarations =
    if o.node.kind = .ident ∧ o.role = .bind ∧ s.isDeclared w (tree.nodeText o.node) = false then
      o.node.id :: s.declarations
    else s.declarations := by
  have howner : o.chain.headD s.root = w := by rw [headD_eq_head?_getD, hw, Option.getD_some]
  unfold see
  extract_lets owner name s₁
  split
  · simp [*]
  · have hs₁ : (s₁.declare owner name).declarations =
        if s.isDeclared w name = true then s.declarations else o.node.id :: s.declarations := by
      show (if s.isDeclared owner name = true then s else _ : Scopes).declarations = _
      rw [show owner = w from howner]
      split <;> rfl
    rw [hs₁]
    simp only [*, true_and]
    cases s.isDeclared w name <;> rfl
  · simp [declare, modify, *]
  · simp [*]
  · simp [*]
  · rename_i h₁ h₂ h₃ h₄ h₅
    rw [if_neg fun hb => h₂ hb.1 hb.2.1]

/-- The declarations are the bindings of names that no earlier occurrence declares in the scopes around. -/
def Declares (tree : Tree) (seen : List Occurrence) (s : Scopes) : Prop :=
  ∀ id, id ∈ s.declarations ↔ ∃ before o after, seen = before ++ o :: after ∧ o.node.id = id ∧ o.IsBinding ∧
    ∀ v ∈ o.chain, ¬ tree.DeclaredIn before v (tree.nodeText o.node)

theorem Declares.append (hd : Declares tree seen s) {s' : Scopes}
    (hnew : ∀ id, id ∈ s'.declarations ↔ id ∈ s.declarations ∨ o.node.id = id ∧ o.IsBinding ∧
      ∀ v ∈ o.chain, ¬ tree.DeclaredIn seen v (tree.nodeText o.node)) : Declares tree (seen ++ [o]) s' := by
  intro id
  rw [hnew, hd id]
  constructor
  · rintro (⟨before, o', after, rfl, hfirst⟩ | hfirst)
    · exact ⟨before, o', after ++ [o], by simp, hfirst⟩
    · exact ⟨seen, o, [], rfl, hfirst⟩
  · rintro ⟨before, o', after, hsplit, hfirst⟩
    rcases eq_nil_or_concat after with rfl | ⟨front, last, rfl⟩
    · obtain ⟨rfl, rfl⟩ := append_singleton_inj.1 hsplit
      exact Or.inr hfirst
    · rw [concat_eq_append, ← cons_append, ← append_assoc] at hsplit
      obtain ⟨rfl, -⟩ := append_singleton_inj.1 hsplit
      exact Or.inl ⟨before, o', front, rfl, hfirst⟩

/-- A scope that is open has the scopes around it that it has in the end. -/
theorem Holds.chain_eq (h : Holds tree seen s) (hall : tree.occurrences = seen ++ os) (hopen : (s.scope? w).isSome) :
    s.chain w = tree.scopeChain w := by
  obtain ⟨c, hc⟩ := Option.isSome_iff_exists.1 hopen
  have hchain := h.chains w
  rw [hc, Option.map_some] at hchain
  rw [Scopes.chain, hc, Tree.scopeChain, hall]
  unfold Tree.chainIn? at hchain ⊢
  split at hchain
  · rename_i hw
    rw [if_pos hw, Option.map_some, hchain]
  · rename_i hw
    obtain ⟨o, ho, hchain⟩ := Option.map_eq_some_iff.1 hchain.symm
    rw [if_neg hw, find?_append, ho, Option.some_or, Option.map_some, Option.map_some, hchain]

theorem declares_foldl (h : tree.Formed) {opened : List Nat} (hd : Declares tree seen s) (hs : Holds tree seen s)
    (hos : Opened opened os) (hopen : ∀ w ∈ opened, (s.scope? w).isSome) (hall : tree.occurrences = seen ++ os) :
    Declares tree tree.occurrences (os.foldl (see tree) s) := by
  induction os generalizing s seen opened with
  | nil =>
    rw [hall, append_nil]
    exact hd
  | cons o os ih =>
    have ho : o ∈ tree.occurrences := by simp [hall]
    obtain ⟨hne, hsub⟩ := hos.1 (h.suits ho).spoken
    have hw := Tree.chain_head? h.numbered h.root_ne_function ho
    have hscopes : ∀ v ∈ o.chain, (s.scope? v).isSome := fun v hv => hopen v (hsub hv)
    have hchain : s.chain (tree.enclosing o.node.id) = o.chain := by
      rw [hs.chain_eq hall (hscopes _ (mem_of_mem_head? hw)), h.chain_eq_scopeChain ho]
    have hdeclared (x : String) : s.isDeclared (tree.enclosing o.node.id) x = true ↔
        ∃ v ∈ o.chain, tree.DeclaredIn seen v x := by
      rw [hs.isDeclared_iff (by rwa [hchain]), hchain]
    rw [append_cons] at hall
    refine ih (hd.append fun id => ?_) (hs.see fun _ => ⟨hne, hscopes⟩) hos.2
      ((sees_see tree s o).isSome_opens hopen) hall
    have hfree : s.isDeclared (tree.enclosing o.node.id) (tree.nodeText o.node) = false ↔
        ∀ v ∈ o.chain, ¬ tree.DeclaredIn seen v (tree.nodeText o.node) := by
      rw [← Bool.not_eq_true, hdeclared]
      simp only [not_exists, not_and]
    rw [declarations_see hw]
    split
    · rename_i hnew
      rw [mem_cons, or_comm, eq_comm, and_iff_left ⟨⟨hnew.1, hnew.2.1⟩, hfree.1 hnew.2.2⟩]
    · rename_i hold
      exact (or_iff_left fun hnew => hold ⟨hnew.2.1.1, hnew.2.1.2, hfree.2 hnew.2.2⟩).symm

theorem declares_ofTree (h : tree.Formed) : Declares tree tree.occurrences (ofTree tree) :=
  have hstart : Declares tree []
      { root := tree.root.id, scopes := [{ owner := tree.root.id, chain := [tree.root.id] }] } := by
    simp [Declares]
  declares_foldl h hstart (holds_nil tree) tree.opened_occurrences (by simp [scope?]) rfl

/-! ## The scopes of a text -/

/-- What the scopes of a program say, told from its tree. -/
structure Lexical (tree : Tree) (s : Scopes) : Prop where
  /-- There is one scope for the program and one for each function. -/
  owners : s.scopes.map (·.owner) =
    (tree.root.descendants.filter fun n => n.kind == .program || n.kind == .function).map (·.id)
  distinct : (s.scopes.map (·.owner)).Nodup
  /-- The scope of the program is the outermost one. -/
  program : s.root = tree.root.id ∧ s.chain tree.root.id = [tree.root.id]
  /-- Around the scope of a function is the one around the function. -/
  parent : ∀ f ∈ tree.root.descendants, f.kind = .function → s.chain f.id = f.id :: s.chain (tree.enclosing f.id)
  declared : ∀ w x, s.isDeclared w x = true ↔ ∃ v ∈ s.chain w, ∃ c, tree.Introduces v c ∧ tree.nodeText c = x
  bound : ∀ w x, s.isBound w x = true ↔ s.isDeclared w x = true ∨ ∃ c, tree.Reads c ∧ tree.nodeText c = x
  declaration : ∀ c ∈ tree.root.descendants, s.isDeclaration c = true ↔ c.kind = .ident ∧ tree.Binds c ∧
    ∀ d, tree.Precedes d c → ∀ v ∈ s.chain (tree.enclosing c.id), tree.Introduces v d →
      tree.nodeText d ≠ tree.nodeText c
  /-- No name has two declarations in one scope. -/
  once : ∀ c ∈ tree.root.descendants, ∀ d ∈ tree.root.descendants, s.isDeclaration c = true →
    s.isDeclaration d = true → tree.enclosing c.id = tree.enclosing d.id → tree.nodeText c = tree.nodeText d → c = d

theorem chain_ofTree (tree : Tree) (w : Nat) : (ofTree tree).chain w = tree.scopeChain w :=
  (records_ofTree tree).chain_eq w

theorem isDeclared_ofTree : (ofTree tree).isDeclared w x = true ↔
    ∃ v ∈ tree.scopeChain w, tree.DeclaredIn tree.occurrences v x := by
  rw [(holds_ofTree tree).isDeclared_iff, chain_ofTree]
  rw [chain_ofTree]
  exact (records_ofTree tree).inScope w

theorem isBound_ofTree : (ofTree tree).isBound w x = true ↔
    (ofTree tree).isDeclared w x = true ∨ tree.ReadIn tree.occurrences x := by
  rw [isDeclared_ofTree, (records_ofTree tree).isBound_iff]
  constructor
  · intro hbound
    by_contra hnot
    rw [not_or] at hnot
    exact hbound ⟨hnot.2, fun v hv hdeclared => hnot.1 ⟨v, hv, hdeclared⟩, by simp⟩
  · rintro (⟨v, hv, hdeclared⟩ | hread) hfree
    · exact hfree.undeclared v hv hdeclared
    · exact hfree.unread hread

theorem root_ofTree (tree : Tree) : (ofTree tree).root = tree.root.id := by
  have hsee (s : Scopes) (o : Occurrence) : (see tree s o).root = s.root := by
    unfold see
    extract_lets owner name s₁
    split
    case h_2 =>
      show (if _ then s else _ : Scopes).root = s.root
      split <;> rfl
    all_goals rfl
  have hfold (os : List Occurrence) (s : Scopes) : (os.foldl (see tree) s).root = s.root := by
    induction os generalizing s with
    | nil => rfl
    | cons o os ih => rw [foldl_cons, ih, hsee]
  exact hfold _ _

/-- The scopes that are made are those of the functions, in their order. -/
theorem owners_ofTree (h : tree.Formed) : (ofTree tree).scopes.map (·.owner) =
    (tree.root.descendants.filter fun n => n.kind == .program || n.kind == .function).map (·.id) := by
  have hscopes : (tree.occurrences.filter (·.isScope)).map (·.node.id) =
      ((tree.root.elements.descendants).filter fun n => n.kind == .program || n.kind == .function).map (·.id) := by
    rw [← Forest.occurrences_node, ← Tree.occurrences, filter_map, map_map]
    congr 1
    refine filter_congr fun o ho => ?_
    have hne : o.node.kind ≠ .program := by
      refine (Tree.forall_occurrences (P := fun n _ _ => n ∈ tree.root.descendants ∧ n.kind ≠ .program) ?_ ?_ o ho).2
      · rintro n _ _ ⟨hn, -⟩ i c hc
        have hc := mem_of_getElem? hc
        exact ⟨Node.descendants_child hn hc, h.ne_program hn hc⟩
      · have hroot := tree.root.self_mem_descendants
        exact fun c hc => ⟨Node.descendants_child hroot hc, h.ne_program hroot hc⟩
    rw [h.isScope_eq ho, Function.comp_apply, beq_false_of_ne hne, Bool.false_or]
  rw [ofTree, owners_foldl, hscopes, Node.descendants_eq, filter_cons_of_pos (by simp [h.root])]
  rfl

theorem isDeclaration_ofTree (h : tree.Formed) (hc : c ∈ tree.root.descendants) :
    (ofTree tree).isDeclaration c = true ↔ c.kind = .ident ∧ tree.Binds c ∧
      ∀ d, tree.Precedes d c → ∀ v ∈ tree.scopeChain (tree.enclosing c.id), tree.Introduces v d →
        tree.nodeText d ≠ tree.nodeText c := by
  rw [isDeclaration, contains_iff_mem, declares_ofTree h c.id]
  constructor
  · rintro ⟨before, o, after, hsplit, hid, hb, hfirst⟩
    have ho : o ∈ tree.occurrences := hsplit ▸ mem_append_right _ mem_cons_self
    obtain rfl := Node.eq_of_id h.numbered (Tree.node_mem ho) hc hid
    refine ⟨hb.1, (h.role_eq_bind_iff ho).1 hb.2, fun d hd v hv hintro htext => ?_⟩
    rw [← h.chain_eq_scopeChain ho] at hv
    exact hfirst v hv ((h.declaredIn_before hsplit).2 ⟨d, hd, hintro, htext⟩)
  · rintro ⟨hk, hbinds, hfirst⟩
    obtain ⟨o, ho, rfl⟩ := h.exists_occurrence_of_ident hc hk
    obtain ⟨before, after, hsplit⟩ := append_of_mem ho
    refine ⟨before, o, after, hsplit, rfl, ⟨hk, (h.role_eq_bind_iff ho).2 hbinds⟩, fun v hv hdecl => ?_⟩
    obtain ⟨d, hd, hintro, htext⟩ := (h.declaredIn_before hsplit).1 hdecl
    rw [h.chain_eq_scopeChain ho] at hv
    exact hfirst d hd v hv hintro htext

/-- The scopes of every text, faults or not, are those of its functions, and a name belongs to the scopes in which it
is introduced. -/
theorem lexical_ofText (text : List Char) :
    Lexical (Parse.ofText text).tree (ofTree (Parse.ofText text).tree) := by
  have h := Parse.formed_tree text
  generalize (Parse.ofText text).tree = tree at h
  have hdeclaration {c : Node} (hc : c ∈ tree.root.descendants) := isDeclaration_ofTree h hc
  constructor
  · exact owners_ofTree h
  · rw [owners_ofTree h]
    have hnumbered := h.numbered
    rw [Tree.Numbered, ← Forest.descendants_toLabel, map_map] at hnumbered
    exact hnumbered.sublist (filter_sublist.map _)
  · rw [chain_ofTree]
    exact ⟨root_ofTree tree, Tree.scopeChain_root⟩
  · intro f hf hk
    obtain ⟨o, ho, rfl⟩ : ∃ o ∈ tree.occurrences, o.node = f := by
      refine (Tree.exists_occurrence hf).resolve_left ?_
      rintro rfl
      exact h.root_ne_function hk
    rw [chain_ofTree, chain_ofTree, h.scopeChain_function ho hk, h.chain_eq_scopeChain ho]
  · intro w x
    rw [isDeclared_ofTree, chain_ofTree]
    simp only [h.declaredIn_iff]
  · intro w x
    rw [isBound_ofTree, h.readIn_iff]
  · intro c hc
    rw [chain_ofTree]
    exact hdeclaration hc
  · intro c hc d hd hcd hdd hscope htext
    obtain ⟨hkc, hbc, hfirstc⟩ := (hdeclaration hc).1 hcd
    obtain ⟨hkd, hbd, hfirstd⟩ := (hdeclaration hd).1 hdd
    have hself : tree.enclosing c.id ∈ tree.scopeChain (tree.enclosing c.id) := by
      obtain ⟨o, ho, rfl⟩ := h.exists_occurrence_of_ident hc hkc
      exact h.enclosing_mem_scopeChain ho
    -- Whichever comes first introduces the name in the scope of the other.
    rcases Tree.precedes_total hc hd with heq | hbefore | hbefore
    · exact heq
    · exact absurd htext (hfirstd c hbefore _ (hscope ▸ hself) ⟨hc, hkc, Or.inr ⟨hbc, rfl⟩⟩)
    · exact absurd htext.symm (hfirstc d hbefore _ hself ⟨hd, hkd, Or.inr ⟨hbd, hscope.symm⟩⟩)

end Scopes

/-- Whatever was asked before, a request is given the first candidate that is free.  In the tree of a text the free
names are told from the identifiers: those that are read, and those that are introduced in the scopes around. -/
theorem Claims.fresh_ofRequests (tree : Tree) (stage : Stage) (earlier : List Request) :
    Fresh tree (ofRequests tree stage earlier) ∧
    ∀ text given w x, let parsed := (Parse.ofText text).tree
      parsed.Free given w x ↔ (∀ c, parsed.Reads c → parsed.nodeText c ≠ x) ∧
        ∀ v ∈ parsed.scopeChain w, (∀ c, parsed.Introduces v c → parsed.nodeText c ≠ x) ∧ (v, x) ∉ given :=
  ⟨fresh_of_records (records_ofRequests tree stage earlier), fun text _ _ _ => (Parse.formed_tree text).free_iff⟩

end Respell
