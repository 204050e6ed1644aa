import Respell.Javascript.Emit
import Respell.Proofs.Javascript.Asked
import Respell.Proofs.Normalize.Assembled
import Respell.Proofs.Patch.Safety

/-!
The patchers of a tree.

A patcher *shows* a node if it stands at its site, has the construct of the node in the parentheses, and
its parts show the nodes that the construct needs.  Assembling a tree without faults gives a patcher that
shows it, unless there is an obstacle (`became_fold`).
-/

namespace Respell

open List

variable {tree : Tree} {nodes : List Node}

/-- The error points at a node, and no edit was refused. -/
def PatchError.AtNode (tree : Tree) : PatchError → Prop
  | .violation _ range | .obstacle _ range | .binding _ range => ∃ m : Node, m.Sound tree ∧ range = m.range
  | .edit _ => False

/-- The site of what the node holds inside its parentheses. -/
structure Site.On (n : Node) (s : Site) : Prop where
  node : s.node = n.unwrapParens
  outer : s.outer = n.toLabel

namespace Site.On

variable {n : Node} {s : Site}

theorem whole (h : s.On n) : s.whole = n.range := by rw [Site.whole, h.outer]

theorem content (h : s.On n) : s.content = n.unwrapParens.range := by rw [Site.content, h.node]

theorem kind (h : s.On n) : s.kind = n.unwrapParens.kind := by rw [Site.kind, h.node]

end Site.On

/-- The part that stands for a node, at its place among those of the construct. -/
structure Part.Of (nodes : List Node) (c : Node) (q : Part) : Prop where
  place : nodes[q.place]? = some c
  site : q.site.On c

theorem Part.Of.append {c : Node} {q : Part} (h : q.Of nodes c) (more : List Node) : q.Of (nodes ++ more) c :=
  ⟨getElem?_append_left (List.getElem?_eq_some_iff.1 h.place).1 ▸ h.place, h.site⟩

theorem Part.rel_append {o : Option Node} {q : Option Part} (h : Option.Rel (Part.Of nodes) o q) (more : List Node) :
    Option.Rel (Part.Of (nodes ++ more)) o q := by
  cases h with
  | none => exact .none
  | some h => exact .some (h.append more)

namespace Javascript

variable {n c block : Node} {v : FunctionView} {Q : Context → Prop}

/-! ## Constructs of nodes -/

/-- A construct that is asked for its value asks all its parts for theirs. -/
def Construct.asksParts : Construct → Bool
  | .block _ | .conditional _ | .assignment _ | .expression _ => true
  | .loop _ | .function _ | .returning _ => false

/-- The parts of a loop, in the order in which they are patched. -/
def loopNodes (v : LoopView) : List Node :=
  v.key.toList ++ v.value.toList ++ v.target.toList ++ v.filter.toList ++ v.body.toList

def conditionalNodes (v : ConditionalView) : List Node :=
  v.condition.toList ++ v.consequent.toList ++ v.alternate.toList

def functionNodes (v : FunctionView) : List Node := v.params.filterMap (·.default?) ++ v.body.toList

/-- What may be a name in the target of an assignment. -/
def targets (lhs : Node) : List Node :=
  match lhs.kind with
  | .ident => [lhs]
  | .array => lhs.children
  | _ => []

/-- The identifier is the declaration of its name. -/
def isNew (tree : Tree) (c : Node) : Bool := c.kind == .ident && (Scopes.ofTree tree).isDeclaration c

structure Param.Fits (nodes : List Node) (v : ParamView) (q : Param) : Prop where
  binding : q.binding = v.binding.range
  isMember : q.isMember = (v.binding.kind == .thisMember)
  ne_this : v.binding.kind ≠ .this
  defaultRange : q.defaultRange = ⟨v.binding.range.stop, v.node.range.stop⟩
  default? : Option.Rel (Part.Of nodes) v.default? q.default?

/-! ## Views -/

theorem assignment_view {v : AssignmentView} (hv : AssignmentView.ofNode? n = some v) :
    v.lhs = n.children[0]? ∧ v.rhs = n.children[1]? ∧ (n.kind = .assign ∨ n.kind = .existsAssign) := by
  unfold AssignmentView.ofNode? at hv
  split at hv
  case isTrue hk =>
    cases hv
    exact ⟨rfl, rfl, hk⟩
  case isFalse => cases hv

theorem conditional_kind {v : ConditionalView} (hv : ConditionalView.ofNode? tree n = some v) : n.kind = .ifExpr := by
  by_contra hk
  rw [ConditionalView.ofNode?, if_neg hk] at hv
  cases hv

theorem loop_kind {v : LoopView} (hv : LoopView.ofNode? tree n = some v) : n.kind = .forExpr := by
  by_contra hk
  rw [LoopView.ofNode?, if_neg hk] at hv
  cases hv

theorem function_kind (hv : FunctionView.ofNode? tree n = some v) : n.kind = .function := by
  by_contra hk
  rw [FunctionView.ofNode?, if_neg hk] at hv
  cases hv

theorem mem_children_of_loopNodes (hn : n.Sound tree) {v : LoopView} (hv : LoopView.ofNode? tree n = some v)
    (hc : c ∈ loopNodes v) : c ∈ n.children := by
  obtain ⟨s, hs⟩ := hn.exists_loopShape (loop_kind hv)
  exact hs.mem_children_of_view (loop_kind hv) hv hc

theorem mem_children_of_conditionalNodes (hn : n.Sound tree) {v : ConditionalView}
    (hv : ConditionalView.ofNode? tree n = some v) (hc : c ∈ conditionalNodes v) : c ∈ n.children := by
  have hk := conditional_kind hv
  have hrows := hn.rows
  rw [hk, Syntax.production] at hrows
  rw [Node.mem_children]
  rcases hrows.add with hrows | hrows
  · obtain ⟨s, hs⟩ := Node.exists_conditionalShape hrows
    cases (hs.view hk).symm.trans hv
    rw [hs.items, ConditionalShape.items]
    simp only [conditionalNodes, ConditionalShape.view, Option.toList_some, mem_append,
      mem_singleton, Option.mem_toList, Option.map_eq_some_iff] at hc
    rcases hc with (rfl | rfl) | ⟨a, ha, rfl⟩
    · simp
    · simp
    · simp [ha, Alternative.items]
  · obtain ⟨body, i, condition, hitems, -, -, hview⟩ := Node.trailing_view hk hrows
    cases hview.symm.trans hv
    rw [hitems]
    simp only [conditionalNodes, Option.toList_some, Option.toList_none, mem_append, mem_singleton] at hc
    rcases hc with (rfl | rfl) | hc
    · simp
    · simp
    · cases hc

/-- A default value stands in a parameter of the list. -/
theorem exists_param_of_default (hv : FunctionView.ofNode? tree n = some v) (hc : c ∈ v.params.filterMap (·.default?)) :
    ∃ list ∈ n.children, ∃ d ∈ list.children, c ∈ d.children ∧ n.kind = .function ∧
      list.kind = .paramList ∧ d.kind = .defaultParam := by
  obtain ⟨w, hw, hdefault⟩ := mem_filterMap.1 hc
  unfold FunctionView.params at hw
  split at hw
  case h_2 => cases hw
  case h_1 list hlist =>
    obtain ⟨d, hd, rfl⟩ := mem_map.1 hw
    unfold FunctionView.ofNode? at hv
    split at hv
    case isFalse => cases hv
    case isTrue hk =>
      cases hv
      unfold ParamView.ofNode at hdefault
      split at hdefault
      · rename_i hparam
        exact ⟨list, mem_of_find?_eq_some hlist, d, hd, mem_of_getElem? hdefault, hk,
          by simpa using find?_some hlist, hparam⟩
      · cases hdefault

theorem mem_children_of_body (hv : FunctionView.ofNode? tree n = some v) (hc : v.body = some c) :
    c ∈ n.children ∧ n.kind = .function ∧ c.kind = .block := by
  unfold FunctionView.ofNode? at hv
  split at hv
  case isFalse => cases hv
  case isTrue hk =>
    cases hv
    exact ⟨mem_of_find?_eq_some hc, hk, by simpa using find?_some hc⟩

theorem mem_descendants_of_functionNodes (hv : FunctionView.ofNode? tree n = some v) (hc : c ∈ functionNodes v) :
    c ∈ n.elements.descendants := by
  rcases mem_append.1 hc with hc | hc
  · obtain ⟨list, hlist, d, hd, hc, -⟩ := exists_param_of_default hv hc
    refine Forest.mem_descendants hlist (Node.mem_descendants_of_elements ?_)
    exact Forest.mem_descendants hd (Node.mem_descendants_of_child hc)
  · exact Node.child_mem_descendants (mem_children_of_body hv (Option.mem_toList.1 hc)).1

/-! ## Patchers of nodes -/

/-- A construct of the node, given the nodes that its parts stand for. -/
inductive Fits (tree : Tree) (n : Node) : List Node → Construct → Prop
  | block {b : Block} (kind : n.kind = .block)
    (isScopeBody : b.isScopeBody = Tree.isScopeBody (tree.ancestors n.id).head?) :
    Fits tree n n.children (.block b)
  | conditional {v : ConditionalView} {condition consequent : Node} {c : Conditional}
    (view : ConditionalView.ofNode? tree n = some v) (leading : v.isTrailing = false)
    (viewCondition : v.condition = some condition) (viewConsequent : v.consequent = some consequent)
    (partCondition : c.condition.Of (conditionalNodes v) condition)
    (partConsequent : c.consequent.Of (conditionalNodes v) consequent)
    (partAlternate : Option.Rel (Part.Of (conditionalNodes v)) v.alternate c.alternate) :
    Fits tree n (conditionalNodes v) (.conditional c)
  | loop {v : LoopView} {target body : Node} {l : Loop} (view : LoopView.ofNode? tree n = some v)
    (viewTarget : v.target = some target) (viewBody : v.body = some body)
    (leading : target.range.start ≤ body.range.start)
    (partKey : Option.Rel (Part.Of (loopNodes v)) v.key l.key)
    (partValue : Option.Rel (Part.Of (loopNodes v)) v.value l.value)
    (partTarget : l.target.Of (loopNodes v) target)
    (partFilter : Option.Rel (Part.Of (loopNodes v)) v.filter l.filter)
    (partBody : l.body.Of (loopNodes v) body)
    (bindings : l.bindings = loopBindings tree (Scopes.ofTree tree) v) :
    Fits tree n (loopNodes v) (.loop l)
  | function {v : FunctionView} {f : Function} (view : FunctionView.ofNode? tree n = some v)
    (arrow : v.arrow.bind tree.token? = some f.arrow) (paramList : f.paramList = v.paramList.map (·.range))
    (params : List.Forall₂ (Param.Fits (functionNodes v)) v.params f.params)
    (partBody : Option.Rel (Part.Of (functionNodes v)) v.body f.body)
    (concise : f.isConcise = true → f.isBound = true ∧ f.hasParamLines = false) :
    Fits tree n (functionNodes v) (.function f)
  | assignment {v : AssignmentView} {lhs rhs : Node} {a : Assignment}
    (view : AssignmentView.ofNode? n = some v) (viewLhs : v.lhs = some lhs) (viewRhs : v.rhs = some rhs)
    (places : a.lhs.place = 0 ∧ a.rhs.place = 1)
    (partLhs : a.lhs.Of [lhs, rhs] lhs) (partRhs : a.rhs.Of [lhs, rhs] rhs)
    (declares : a.declares = ((targets lhs).filter (isNew tree)).map fun c =>
      ⟨tree.nodeText c, !tree.isBlockLocal c⟩)
    (declaresAll : a.declaresAll = (!(targets lhs).isEmpty && (targets lhs).all (isNew tree)))
    (isExistence : a.isExistence = v.isExistence) :
    Fits tree n [lhs, rhs] (.assignment a)
  | returning {value : Option Part} (kind : n.kind = .returnStmt)
    (partValue : Option.Rel (Part.Of n.children.head?.toList) n.children.head? value) :
    Fits tree n n.children.head?.toList (.returning value)
  | expression (plain : isPlain n.kind = true) (view : AssignmentView.ofNode? n = none)
    (kind : n.kind ≠ .returnStmt) :
    Fits tree n n.children (.expression (respelled tree n))

/-- The kinds of nodes that a construct of this form stands for. -/
def Construct.standsFor : Construct → Kind → Bool
  | .block _, kind => kind == .block
  | .conditional _, kind => kind == .ifExpr
  | .loop _, kind => kind == .forExpr
  | .function _, kind => kind == .function
  | .assignment _, kind => kind == .assign || kind == .existsAssign
  | .returning _, kind => kind == .returnStmt
  | .expression _, kind => isPlain kind

section Forms

variable {nodes : List Node} {k : Construct}

theorem Fits.standsFor (h : Fits tree n nodes k) : k.standsFor n.kind = true := by
  cases h with
  | block kind | returning kind => exact beq_iff_eq.2 kind
  | conditional view => exact beq_iff_eq.2 (conditional_kind view)
  | loop view => exact beq_iff_eq.2 (loop_kind view)
  | function view => exact beq_iff_eq.2 (function_kind view)
  | assignment view =>
    obtain ⟨-, -, hk | hk⟩ := assignment_view view <;> rw [hk] <;> rfl
  | expression plain => exact plain

theorem Fits.eq_block (h : Fits tree n nodes k) (hk : n.kind = .block) : ∃ b, k = .block b := by
  have hstands := h.standsFor
  rw [hk] at hstands
  cases k <;> first | exact ⟨_, rfl⟩ | cases hstands

theorem Fits.eq_conditional (h : Fits tree n nodes k) (hk : n.kind = .ifExpr) : ∃ c, k = .conditional c := by
  have hstands := h.standsFor
  rw [hk] at hstands
  cases k <;> first | exact ⟨_, rfl⟩ | cases hstands

theorem Fits.eq_function (h : Fits tree n nodes k) (hk : n.kind = .function) : ∃ f, k = .function f := by
  have hstands := h.standsFor
  rw [hk] at hstands
  cases k <;> first | exact ⟨_, rfl⟩ | cases hstands

end Forms

/-- The construct is to return its last statement. -/
def Construct.returns : Construct → Bool
  | .block b => b.returns
  | .conditional c => c.returns
  | _ => false

/-- Nothing has been asked of the patcher. -/
structure Fresh (p : Patcher Construct) : Prop where
  phase : p.phase = .constructed
  needsValue : p.site.needsValue = false
  returns : p.construct.returns = false

/-- The patcher, and all below it, are those of the node.  A part that is asked for its value is one that
may be asked (`within`). -/
inductive Shows (tree : Tree) : Node → Patcher Construct → Prop
  | intro {n : Node} {p : Patcher Construct} (nodes : List Node) (site : p.site.On n)
    (fits : Fits tree n.unwrapParens nodes p.construct)
    (parts : List.Forall₂ (Shows tree) nodes p.parts)
    (fresh : p.phase = .constructed → ∀ q ∈ p.parts, Fresh q)
    (asked : p.phase = .prepared → p.construct.asksParts = true → p.site.needsValue = true →
      ∀ q ∈ p.parts, q.site.needsValue = true)
    (within : p.phase = .prepared → List.Forall₂ (fun c q =>
      c.asked tree q.site.needsValue ⊆ n.unwrapParens.asked tree p.site.needsValue) nodes p.parts) :
    Shows tree n p

variable {p : Patcher Construct}

theorem Shows.site (h : Shows tree n p) : p.site.On n := by
  obtain ⟨-, hsite, -, -, -, -, -⟩ := h
  exact hsite

/-! ## Assembling -/

/-- What the node became: a patcher that shows it, or an obstacle. -/
def Became (tree : Tree) (n : Node) : Except PatchError (Patcher Construct) → Prop
  | .ok p => Shows tree n p ∧ Fresh p
  | .error e => e.AtNode tree

/-- The results tell what the node became. -/
def Known (tree : Tree) (results : Results Construct) (n : Node) : Prop :=
  ∃ r, results.lookup n.id = some r ∧ Became tree n r

/-- The patchers collected so far show the nodes. -/
def Collected (tree : Tree) (nodes : List Node) (ps : List (Patcher Construct)) : Prop :=
  List.Forall₂ (fun c p => Shows tree c p ∧ Fresh p) nodes ps

theorem Collected.fresh {nodes : List Node} {ps : List (Patcher Construct)}
    (h : Collected tree nodes ps) : ∀ p ∈ ps, Fresh p := by
  intro p hp
  obtain ⟨i, hi, rfl⟩ := getElem_of_mem hp
  obtain ⟨hlen, hall⟩ := forall₂_iff_get.1 h
  exact (hall i (hlen ▸ hi) hi).2

section Parts

variable {results : Results Construct} {nodes : List Node} {ps : List (Patcher Construct)}

open Assembly

theorem part_safe {c : Node} (hps : Collected tree nodes ps)
    (hc : Known tree results c) :
    Safe (PatchError.AtNode tree) (part results c) ps fun q ps' =>
      q.place = nodes.length ∧ q.Of (nodes ++ [c]) c ∧ Collected tree (nodes ++ [c]) ps' := by
  obtain ⟨r, hr, hbecame⟩ := hc
  unfold Safe part
  cases r with
  | error e =>
    rw [hr]
    exact hbecame
  | ok p =>
    rw [hr]
    refine ⟨hps.length_eq.symm, ⟨?_, hbecame.1.site⟩, rel_append hps (.cons hbecame .nil)⟩
    show (nodes ++ [c])[ps.length]? = some c
    rw [← hps.length_eq]
    simp

theorem part?_safe {o : Option Node} (hps : Collected tree nodes ps)
    (ho : ∀ c ∈ o, Known tree results c) :
    Safe (PatchError.AtNode tree) (part? results o) ps fun q ps' =>
      Option.Rel (Part.Of (nodes ++ o.toList)) o q ∧
        Collected tree (nodes ++ o.toList) ps' := by
  cases o with
  | none => exact Safe.pure ⟨.none, by simpa using hps⟩
  | some c =>
    show Safe _ (some <$> part results c) ps _
    rw [map_eq_pure_bind]
    refine (part_safe hps (ho c rfl)).bind fun q ps' h => ?_
    exact Safe.pure ⟨.some h.2.1, h.2.2⟩

theorem children_safe {cs : List Node} (hps : Collected tree nodes ps)
    (hcs : ∀ c ∈ cs, Known tree results c) :
    Safe (PatchError.AtNode tree) (cs.forM fun c => discard (part results c)) ps fun _ ps' =>
      Collected tree (nodes ++ cs) ps' := by
  induction cs generalizing nodes ps with
  | nil => exact Safe.pure (by simpa using hps)
  | cons c cs ih =>
    obtain ⟨hc, hcs⟩ := forall_mem_cons.1 hcs
    have hpart : Safe (PatchError.AtNode tree) (discard (part results c)) ps fun _ ps' =>
        Collected tree (nodes ++ [c]) ps' := by
      show Safe _ ((fun _ => PUnit.unit) <$> part results c) ps _
      rw [map_eq_pure_bind]
      exact (part_safe hps hc).bind fun q ps' h => Safe.pure h.2.2
    refine hpart.bind fun _ ps' h => ?_
    rw [append_cons]
    exact ih h hcs

end Parts

/-! ## Constructs -/

section Constructs

variable {n : Node} {results : Results Construct}

open Assembly

/-- The assembly gives the node a construct, and the patchers of its parts. -/
def Fitting (tree : Tree) (n : Node) (m : Assembly Construct Construct) : Prop :=
  Safe (PatchError.AtNode tree) m [] fun k ps =>
    ∃ nodes, Fits tree n nodes k ∧ Collected tree nodes ps ∧ k.returns = false

theorem loop_fitting (hn : n.Sound tree) {v : LoopView} (hv : LoopView.ofNode? tree n = some v)
    (hnodes : ∀ c ∈ loopNodes v, Known tree results c) :
    Fitting tree n (loop tree (.ofTree tree) n results v) := by
  have hstart : Collected tree [] [] := .nil
  refine Safe.bind (Q := fun a ps => v.target = some a ∧ ps = []) (Safe.need ⟨n, hn, rfl⟩ fun a h => ⟨h, rfl⟩) ?_
  rintro target _ ⟨htarget, rfl⟩
  refine Safe.bind (Q := fun a ps => v.body = some a ∧ ps = []) (Safe.need ⟨n, hn, rfl⟩ fun a h => ⟨h, rfl⟩) ?_
  rintro body _ ⟨hbody, rfl⟩
  split
  case isTrue => exact ⟨n, hn, rfl⟩
  case isFalse hleading =>
    simp only [loopNodes, htarget, hbody, Option.toList_some, mem_append, Option.mem_toList, mem_singleton] at hnodes
    refine (part?_safe hstart fun c hc => hnodes c (by simp [Option.mem_def.1 hc])).bind fun key ps hkey => ?_
    refine (part?_safe hkey.2 fun c hc => hnodes c (by simp [Option.mem_def.1 hc])).bind fun value ps hvalue => ?_
    refine (part_safe hvalue.2 (hnodes target (by simp))).bind fun t ps ht => ?_
    refine (part?_safe ht.2.2 fun c hc => hnodes c (by simp [Option.mem_def.1 hc])).bind fun filter ps hfilter => ?_
    refine (part_safe hfilter.2 (hnodes body (by simp))).bind fun b ps hb => ?_
    have heq : loopNodes v = [] ++ v.key.toList ++ v.value.toList ++ [target] ++ v.filter.toList ++ [body] := by
      simp [loopNodes, htarget, hbody]
    refine Safe.pure ⟨loopNodes v, .loop hv htarget hbody (Nat.le_of_not_lt hleading) ?_ ?_ ?_ ?_ ?_ rfl, ?_, rfl⟩
    · rw [heq]
      exact Part.rel_append (Part.rel_append (Part.rel_append (Part.rel_append hkey.1 _) _) _) _
    · rw [heq]
      exact Part.rel_append (Part.rel_append (Part.rel_append hvalue.1 _) _) _
    · rw [heq]
      exact (ht.2.1.append _).append _
    · rw [heq]
      exact Part.rel_append hfilter.1 _
    · rw [heq]
      exact hb.2.1
    · rw [heq]
      exact hb.2.2

theorem conditional_fitting (hn : n.Sound tree) {v : ConditionalView} (hv : ConditionalView.ofNode? tree n = some v)
    (hnodes : ∀ c ∈ conditionalNodes v, Known tree results c) :
    Fitting tree n (conditional n results v) := by
  have hstart : Collected tree [] [] := .nil
  unfold conditional
  split
  case isTrue => exact ⟨n, hn, rfl⟩
  case isFalse hleading =>
    refine Safe.bind (Q := fun a ps => v.condition = some a ∧ ps = []) (Safe.need ⟨n, hn, rfl⟩ fun a h => ⟨h, rfl⟩) ?_
    rintro condition _ ⟨hcondition, rfl⟩
    refine Safe.bind (Q := fun a ps => v.consequent = some a ∧ ps = []) (Safe.need ⟨n, hn, rfl⟩ fun a h => ⟨h, rfl⟩) ?_
    rintro consequent _ ⟨hconsequent, rfl⟩
    simp only [conditionalNodes, hcondition, hconsequent, Option.toList_some, mem_append,
      Option.mem_toList, mem_singleton] at hnodes
    refine (part_safe hstart (hnodes condition (by simp))).bind fun p ps hp => ?_
    refine (part_safe hp.2.2 (hnodes consequent (by simp))).bind fun q ps hq => ?_
    refine (part?_safe hq.2.2 fun c hc => hnodes c (by simp [Option.mem_def.1 hc])).bind fun a ps ha => ?_
    have heq : conditionalNodes v = [] ++ [condition] ++ [consequent] ++ v.alternate.toList := by
      simp [conditionalNodes, hcondition, hconsequent]
    refine Safe.pure ⟨conditionalNodes v,
      .conditional hv (by simpa using hleading) hcondition hconsequent ?_ ?_ ?_, ?_, rfl⟩
    · rw [heq]
      exact (hp.2.1.append _).append _
    · rw [heq]
      exact hq.2.1.append _
    · rw [heq]
      exact ha.1
    · rw [heq]
      exact ha.2

/-- The parameters of a function, those in front and one more. -/
theorem param_safe {vs : List ParamView} {qs : List Param} {ps : List (Patcher Construct)} {v : ParamView}
    (hv : v.binding.Sound tree) (hnodes : ∀ c ∈ v.default?, Known tree results c)
    (hqs : List.Forall₂ (Param.Fits (vs.filterMap (·.default?))) vs qs)
    (hps : Collected tree (vs.filterMap (·.default?)) ps) :
    Safe (PatchError.AtNode tree) (param tree results v) ps fun q ps' =>
      List.Forall₂ (Param.Fits ((vs ++ [v]).filterMap (·.default?))) (vs ++ [v]) (qs ++ [q]) ∧
        Collected tree ((vs ++ [v]).filterMap (·.default?)) ps' := by
  have heq : (vs ++ [v]).filterMap (·.default?) = vs.filterMap (·.default?) ++ v.default?.toList := by
    rw [filterMap_append]
    cases h : v.default? <;> simp [h]
  rw [heq]
  refine Safe.bind (Q := fun name ps' => tree.nameOf? v.binding = some name ∧ ps' = ps)
    (Safe.need ⟨_, hv, rfl⟩ fun _ h => ⟨h, rfl⟩) ?_
  rintro name _ ⟨hname, rfl⟩
  have hthis : v.binding.kind ≠ .this := fun hk => by
    rw [Tree.nameOf?, hk] at hname
    cases hname
  refine (part?_safe hps hnodes).bind fun d ps' hd => ?_
  refine Safe.pure ⟨rel_append (hqs.imp fun _ _ h => ?_) (.cons ⟨rfl, rfl, hthis, rfl, hd.1⟩ .nil), hd.2⟩
  exact ⟨h.binding, h.isMember, h.ne_this, h.defaultRange, Part.rel_append h.default? _⟩

theorem function_fitting (hn : n.Sound tree) {v : FunctionView} (hv : FunctionView.ofNode? tree n = some v)
    (hnodes : ∀ c ∈ functionNodes v, Known tree results c) :
    Fitting tree n (function tree n results v) := by
  have hparams : ∀ w ∈ v.params, ∀ c ∈ w.default?, Known tree results c := fun w hw c hc =>
    hnodes c (mem_append_left _ (mem_filterMap.2 ⟨w, hw, hc⟩))
  refine Safe.bind (Q := fun a ps => v.arrow.bind tree.token? = some a ∧ ps = [])
    (Safe.need ⟨n, hn, rfl⟩ fun a h => ⟨h, rfl⟩) ?_
  rintro arrow _ ⟨harrow, rfl⟩
  refine Safe.bind (Safe.mapM (I := fun vs qs ps =>
    List.Forall₂ (Param.Fits (vs.filterMap (·.default?))) vs qs ∧
      Collected tree (vs.filterMap (·.default?)) ps) ⟨.nil, .nil⟩ fun w hw _ _ _ h =>
    param_safe (hn.binding hv hw) (hparams w hw) h.1 h.2) fun params ps hps => ?_
  refine (part?_safe hps.2 fun c hc => hnodes c (mem_append_right _ (Option.mem_toList.2 hc))).bind
    fun body ps hbody => ?_
  refine Safe.pure ⟨functionNodes v, .function hv harrow rfl (hps.1.imp fun _ _ h => ?_) hbody.1 nofun, hbody.2, rfl⟩
  exact ⟨h.binding, h.isMember, h.ne_this, h.defaultRange, Part.rel_append h.default? _⟩

theorem assignment_fitting (hn : n.Sound tree) {v : AssignmentView} (hv : AssignmentView.ofNode? n = some v)
    (hnodes : ∀ c ∈ n.children, Known tree results c) :
    Fitting tree n (assignment tree (.ofTree tree) n results v) := by
  have hstart : Collected tree [] [] := .nil
  obtain ⟨hviewLhs, hviewRhs, -⟩ := assignment_view hv
  refine Safe.bind (Q := fun a ps => v.lhs = some a ∧ ps = []) (Safe.need ⟨n, hn, rfl⟩ fun a h => ⟨h, rfl⟩) ?_
  rintro lhs _ ⟨hlhs, rfl⟩
  refine Safe.bind (Q := fun a ps => v.rhs = some a ∧ ps = []) (Safe.need ⟨n, hn, rfl⟩ fun a h => ⟨h, rfl⟩) ?_
  rintro rhs _ ⟨hrhs, rfl⟩
  have hmemLhs := mem_of_getElem? (hviewLhs.symm.trans hlhs)
  have hmemRhs := mem_of_getElem? (hviewRhs.symm.trans hrhs)
  refine (part_safe hstart (hnodes lhs hmemLhs)).bind fun p ps hp => ?_
  refine (part_safe hp.2.2 (hnodes rhs hmemRhs)).bind fun q ps hq => ?_
  exact Safe.pure ⟨_, .assignment hv hlhs hrhs ⟨hp.1, hq.1⟩ (hp.2.1.append [rhs]) hq.2.1 rfl rfl rfl, hq.2.2, rfl⟩

theorem construct_fitting (hn : n.Sound tree) (hk : n.kind ≠ .program)
    (hparen : n.kind ≠ .parenExpr) (hknown : ∀ c ∈ n.elements.descendants, Known tree results c) :
    Fitting tree n (construct tree (.ofTree tree) n results) := by
  have hchildren : ∀ c ∈ n.children, Known tree results c := fun c hc =>
    hknown c (Node.child_mem_descendants hc)
  unfold construct
  cases hloop : LoopView.ofNode? tree n with
  | some v => exact loop_fitting hn hloop fun c hc => hchildren c (mem_children_of_loopNodes hn hloop hc)
  | none =>
  cases hconditional : ConditionalView.ofNode? tree n with
  | some v =>
    exact conditional_fitting hn hconditional fun c hc =>
      hchildren c (mem_children_of_conditionalNodes hn hconditional hc)
  | none =>
  cases hfunction : FunctionView.ofNode? tree n with
  | some v =>
    exact function_fitting hn hfunction fun c hc => hknown c (mem_descendants_of_functionNodes hfunction hc)
  | none =>
  cases hassignment : AssignmentView.ofNode? n with
  | some v => exact assignment_fitting hn hassignment hchildren
  | none =>
    have hstart : Collected tree [] [] := .nil
    have hparts := children_safe hstart hchildren
    simp only
    split
    case h_1 hk => exact hparts.bind fun _ _ h => Safe.pure ⟨_, .block hk rfl, h, rfl⟩
    case h_2 hk =>
      refine (part?_safe hstart fun c hc => hchildren c (mem_of_mem_head? hc)).bind fun value ps h => ?_
      exact Safe.pure ⟨_, .returning hk h.1, h.2, rfl⟩
    case h_3 hblock hreturn =>
      have hplain : isPlain n.kind = true := by
        unfold LoopView.ofNode? at hloop
        unfold ConditionalView.ofNode? at hconditional
        unfold FunctionView.ofNode? at hfunction
        unfold isPlain
        split <;> simp_all
      exact hparts.bind fun _ _ h => Safe.pure ⟨_, .expression hplain hassignment hreturn, h, rfl⟩

end Constructs

/-! ## Patchers -/

theorem Shows.withOuter (h : Shows tree c p) (hunwrap : n.unwrapParens = c.unwrapParens) :
    Shows tree n (p.withOuter n.toLabel) := by
  obtain ⟨nodes, hsite, hfits, hparts, hfresh, hasked, hwithin⟩ := h
  obtain ⟨site, phase, k, parts⟩ := p
  exact .intro nodes ⟨hsite.node.trans hunwrap.symm, rfl⟩ (hunwrap ▸ hfits) hparts hfresh hasked (hunwrap ▸ hwithin)

/-- A node becomes a patcher that shows it, unless there is an obstacle. -/
theorem became_fold (n : Node) (hn : n.Sound tree) (hk : n.kind ≠ .program) :
    Became tree n (n.fold (patcher tree (.ofTree tree))) := by
  generalize hscopes : Scopes.ofTree tree = scopes
  induction n using Node.descendants_induction with
  | step n ih =>
    have hbelow : ∀ c ∈ n.elements.descendants, Became tree c (c.fold (patcher tree scopes)) :=
      fun c hc => ih c hc (hn.descendant (Node.mem_descendants_of_elements hc)).1 (hn.ne_program hc)
    have hpatcher : n.fold (patcher tree scopes) =
        Assembly.patcher tree (construct tree scopes) n (n.elements.results (patcher tree scopes)) := by
      unfold Node.fold patcher
      split
      · contradiction
      · rfl
    rw [hpatcher]
    unfold Assembly.patcher
    by_cases hparen : n.kind = .parenExpr
    · -- Parentheses become the patcher of what they hold.
      obtain ⟨c, hchildren, hc, hunwrap, -, -⟩ := hn.paren hparen
      have hmem : c ∈ n.children := by simp [hchildren]
      have hbecame := hbelow c (Node.child_mem_descendants hmem)
      have hhead : (n.elements.results (patcher tree scopes)).head? = some (c.id, c.fold (patcher tree scopes)) := by
        rw [Forest.head?_results, show n.elements.nodes = [c] from hchildren]
        rfl
      simp only [hparen, if_true, hhead]
      generalize c.fold (patcher tree scopes) = r at hbecame
      cases r with
      | error e => exact hbecame
      | ok p =>
        refine ⟨hbecame.1.withOuter hunwrap, ?_⟩
        obtain ⟨site, phase, k, parts⟩ := p
        exact ⟨hbecame.2.phase, hbecame.2.needsValue, hbecame.2.returns⟩
    · have hfitting := construct_fitting hn hk hparen fun c hc =>
        ⟨_, hn.lookup_results hc _, hbelow c hc⟩
      rw [hscopes] at hfitting
      simp only [hparen, if_false]
      unfold Fitting Assembly.Safe at hfitting
      show Became tree n ((construct tree scopes n _ []).bind _)
      generalize construct tree scopes n (n.elements.results (patcher tree scopes)) [] = r at hfitting
      cases r with
      | error e => exact hfitting
      | ok r =>
        obtain ⟨nodes, hfits, hcollected, hreturns⟩ := hfitting
        refine ⟨.intro nodes ⟨rfl, rfl⟩ ?_ (hcollected.imp fun _ _ h => h.1) (fun _ => ?_) (fun h => ?_)
          fun h => ?_, rfl, rfl, hreturns⟩
        · rw [Node.unwrapParens_of_ne hparen]
          exact hfits
        · exact hcollected.fresh
        · cases h
        · cases h

/-! ## Programs -/

theorem respellComments_scopes (g : Context) :
    Patching.Safe (fun _ => True) respellComments g fun _ g' => g'.scopes = g.scopes := by
  have hedit (f : Editor → Except EditError Editor) (g' : Context) (h : g'.scopes = g.scopes) :
      Patching.Safe (fun _ => True) (Patching.edit f) g' fun _ g'' => g''.scopes = g.scopes := by
    apply Patching.Safe.get_bind
    cases f g'.editor with
    | error e => trivial
    | ok e => exact h
  refine Patching.Safe.get_bind (Patching.Safe.forM (I := fun _ g' => g'.scopes = g.scopes) rfl fun c _ g' h => ?_)
  exact Patching.Safe.forM (I := fun _ g' => g'.scopes = g.scopes) h fun x _ g'' h => hedit _ _ h

/-- The stage respells the comments, puts the patchers together, runs them, and takes the text. -/
theorem run_safe {E : PatchError → Prop} {J : Context → Prop}
    (hcomments : Patching.Safe E respellComments (.ofTree tree .main) fun _ => J)
    (hmake : ∀ e, patchers tree (.ofTree tree) = .error e → E e)
    (hrun : ∀ p g, patchers tree (.ofTree tree) = .ok p → J g → Patching.Safe E (p.runAll hooks) g fun _ => Q)
    (hrender : ∀ g, Q g → Patching.Safe E Patching.render g fun _ => Q) :
    Patching.Safe E (run tree) (.ofTree tree .main) fun _ => Q := by
  refine (hcomments.and (respellComments_scopes _)).bind fun _ g₁ h₁ => ?_
  apply Patching.Safe.get_bind
  rw [show g₁.scopes = .ofTree tree from h₁.2]
  cases hp : patchers tree (.ofTree tree) with
  | error e => exact hmake e hp
  | ok p =>
    refine Patching.Safe.bind (Q := fun q g => q = p ∧ g = g₁) ⟨rfl, rfl⟩ ?_
    rintro _ _ ⟨rfl, rfl⟩
    exact (hrun _ _ hp h₁.1).bind fun _ => hrender

theorem render_safe (g : Context) (hg : Q g) : Patching.Safe (fun _ => True) Patching.render g fun _ => Q := by
  apply Patching.Safe.get_bind
  dsimp only
  cases g.editor.render with
  | error e => trivial
  | ok text => exact hg

/-- The patchers of a program are those of its block. -/
theorem patchers_eq (hroot : tree.root.kind = .program) (hchildren : tree.root.children = [block]) (scopes : Scopes) :
    patchers tree scopes = block.fold (patcher tree scopes) := by
  have hhead := Forest.head?_results (patcher tree scopes) tree.root.elements
  rw [show tree.root.elements.nodes = [block] from hchildren] at hhead
  obtain ⟨rest, heq⟩ := head?_eq_some_iff.1 hhead
  rw [patchers, Node.fold, heq]
  simp only [patcher, hroot]

/-- The patchers of a program with code show its block. -/
theorem shows_patchers (h : tree.root.Sound tree) (hroot : tree.root.kind = .program)
    (hchildren : tree.root.children = [block]) (hblock : block.kind = .block)
    (hp : patchers tree (.ofTree tree) = .ok p) : Shows tree block p ∧ Fresh p := by
  have hbecame := became_fold block (h.child (by simp [hchildren])) (by rw [hblock]; decide)
  rw [patchers_eq hroot hchildren] at hp
  rwa [hp] at hbecame

theorem fold_empty (hk : block.kind = .block) (hchildren : block.children = []) (scopes : Scopes) :
    ∃ isScopeBody, block.fold (patcher tree scopes) = .ok (.new (.ofNode tree block) (.block { isScopeBody }) []) := by
  have hconstruct (results : Results Construct) : construct tree scopes block results [] =
      .ok (.block { isScopeBody := Tree.isScopeBody (tree.ancestors block.id).head? }, []) := by
    simp only [construct, LoopView.ofNode?, ConditionalView.ofNode?, FunctionView.ofNode?, AssignmentView.ofNode?, hk,
      hchildren]
    rfl
  refine ⟨Tree.isScopeBody (tree.ancestors block.id).head?, ?_⟩
  simp only [Node.fold, patcher, hk, Assembly.patcher, StateT.run, hconstruct]
  rfl

theorem runAll_empty (block : Node) (isScopeBody : Bool) (g : Context) :
    (Patcher.new (.ofNode tree block) (.block { isScopeBody }) []).runAll hooks g = (.ok (), g) := by
  have hprepare : (Patcher.new (.ofNode tree block) (.block { isScopeBody }) []).call hooks .prepare g =
      ⟨.ok (), .mk (.ofNode tree block) .prepared (.block { isScopeBody }) [], g⟩ := rfl
  have hpatch : (Patcher.mk (.ofNode tree block) .prepared (.block { isScopeBody }) []).call hooks .patch g =
      ⟨.ok (), .mk (.ofNode tree block) .patched (.block { isScopeBody }) [], g⟩ := rfl
  unfold Patcher.runAll
  rw [hprepare]
  dsimp only
  rw [hpatch]

end Javascript

end Respell
