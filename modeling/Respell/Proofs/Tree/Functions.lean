import Respell.Proofs.Tree.Shape

/-!
Functions of a tree without faults.

    function    list? arrow body?
    list        ( parameter , … )
    parameter   name  |  name = value
-/

namespace Respell

open Syntax
open scoped Computability

variable {tree : Tree} {n : Node} {v : FunctionView} {w : ParamView}

/-! ## Functions -/

/-- The parts of a function. -/
structure FunctionShape where
  paramList : Option Node
  arrow : Nat
  body : Option Node

namespace FunctionShape

def items (s : FunctionShape) : List Item :=
  (s.paramList.map Item.node).toList ++ [.token s.arrow] ++ (s.body.map Item.node).toList

/-- The node has these parts. -/
structure Of (tree : Tree) (n : Node) (s : FunctionShape) : Prop where
  items : n.items = s.items
  arrow : tree.kindAt s.arrow = .arrow ∨ tree.kindAt s.arrow = .fatArrow
  paramList : ∀ c, s.paramList = some c → c.kind = .paramList
  body : ∀ c, s.body = some c → c.kind = .block

def view (tree : Tree) (s : FunctionShape) : FunctionView where
  arrow := some s.arrow
  paramList := s.paramList
  body := s.body
  isBound := tree.kindAt s.arrow == .fatArrow

theorem Of.view {s : FunctionShape} (hs : s.Of tree n) (hk : n.kind = .function) :
    FunctionView.ofNode? tree n = some (s.view tree) := by
  obtain ⟨paramList, arrow, body⟩ := s
  obtain ⟨hitems, harrow, hlist, hbody⟩ := hs
  have hown : n.ownTokens = [arrow] := by
    rw [Node.ownTokens_eq hitems]
    cases paramList <;> cases body <;> rfl
  have hchildren : n.children = paramList.toList ++ body.toList := by
    rw [Node.children_eq hitems]
    cases paramList <;> cases body <;> rfl
  have hfind : [arrow].find? (fun i => tree.kindAt i == .arrow || tree.kindAt i == .fatArrow) = some arrow := by
    rcases harrow with h | h <;> simp [h]
  have hlist : (paramList.toList ++ body.toList).find? (fun c => c.kind == .paramList) = paramList := by
    cases paramList with
    | none => cases body <;> simp_all
    | some l => simp [hlist l rfl]
  have hbody : (paramList.toList ++ body.toList).find? (fun c => c.kind == .block) = body := by
    cases paramList <;> cases body <;> simp_all
  simp only [FunctionView.ofNode?, hk, if_true, hown, hchildren, hfind, hlist, hbody]
  rfl

end FunctionShape

theorem Node.Sound.exists_functionShape (h : n.Sound tree) (hk : n.kind = .function) :
    ∃ s : FunctionShape, s.Of tree n := by
  have hrows := h.rows
  rw [hk, production] at hrows
  obtain ⟨head, rest, hitems, hhead, hrest⟩ := hrows.mul
  obtain ⟨body, hbody, hblock⟩ : ∃ body : Option Node, rest = (body.map Item.node).toList ∧
      ∀ c, body = some c → c.kind = .block := by
    rcases hrest.add with hrest | hrest
    · exact ⟨none, hrest.one, fun _ h => by cases h⟩
    · obtain ⟨c, hc, hk, -⟩ := hrest.node
      exact ⟨some c, hc, by simpa using hk⟩
  obtain ⟨list, arrow, hlist, harrow, hkind⟩ : ∃ (list : Option Node) (arrow : Nat),
      head = (list.map Item.node).toList ++ [.token arrow] ∧
        tree.kindAt arrow ∈ [Kind.arrow, .fatArrow] ∧ ∀ c, list = some c → c.kind = .paramList := by
    rcases hhead.add with hhead | hhead
    · obtain ⟨i, hi, hk⟩ := hhead.word
      exact ⟨none, i, hi, hk, fun _ h => by cases h⟩
    · obtain ⟨_, _, rfl, hlist, harrow⟩ := hhead.mul
      obtain ⟨c, rfl, hk, -⟩ := hlist.node
      obtain ⟨i, rfl, hi⟩ := harrow.word
      exact ⟨some c, i, rfl, hi, by simpa using hk⟩
  exact ⟨⟨list, arrow, body⟩, by rw [hitems, hlist, hbody]; rfl, by simpa using harrow, hkind, hblock⟩

/-! ## Parameters -/

/-- A list holds nodes of one class, with commas between them. -/
theorem Syntax.separated_le_listed (q : Kind → Bool) :
    separated (node q) ≤ every fun s => s = .token .comma ∨ ∃ k, q k = true ∧ s = .node k :=
  separated_le_every (node_le_every fun k hk => Or.inr ⟨k, hk, rfl⟩) (Or.inl rfl)

variable {c : Node}

/-- The nodes of a list between brackets are of the class of the list. -/
theorem Rows.of_mem_separated {k k' : Kind} {q : Kind → Bool} {items : List Item}
    (h : Rows tree (Syntax.word [k] * Syntax.separated (Syntax.node q) * Syntax.word [k']) items)
    (hc : .node c ∈ items) : q c.kind = true := by
  obtain ⟨_, _, rfl, h, hright⟩ := h.mul
  obtain ⟨_, members, rfl, hleft, hmembers⟩ := h.mul
  obtain ⟨i, rfl, -⟩ := hleft.word
  obtain ⟨j, rfl, -⟩ := hright.word
  have hc : .node c ∈ members := by simpa using hc
  rcases Syntax.separated_le_listed q hmembers _ (List.mem_map_of_mem hc) with hs | ⟨k, hk, hs⟩
  · rcases c.symbol_eq tree with h | h <;> cases h.symm.trans hs
  · rcases c.symbol_eq tree with h | h
    · cases h.symm.trans hs
      exact hk
    · cases h.symm.trans hs

theorem Node.Sound.isParameter (h : n.Sound tree) (hk : n.kind = .paramList) (hc : c ∈ n.children) :
    Syntax.isParameter c.kind = true := by
  have hrows := h.rows
  rw [hk, production] at hrows
  exact hrows.of_mem_separated (Node.mem_children.1 hc)

/-- A parameter is a name, or a name and a value for it. -/
theorem Node.Sound.param_cases (h : c.Sound tree) (hc : Syntax.isParameter c.kind = true) :
    (isName c.kind = true ∧ ParamView.ofNode c = ⟨c, c, none⟩) ∨
      ∃ name i value, c.items = [.node name, .token i, .node value] ∧ tree.kindAt i = .eq ∧
        isName name.kind = true ∧ ParamView.ofNode c = ⟨c, name, some value⟩ := by
  by_cases hk : c.kind = .defaultParam
  · right
    have hrows := h.rows
    rw [hk, production] at hrows
    obtain ⟨_, _, hitems, h, hvalue⟩ := hrows.mul
    obtain ⟨_, _, rfl, hname, heq⟩ := h.mul
    obtain ⟨name, rfl, hisName, -⟩ := hname.node
    obtain ⟨i, rfl, hi⟩ := heq.word
    obtain ⟨value, rfl, -⟩ := hvalue.node
    refine ⟨name, i, value, hitems, by simpa using hi, hisName, ?_⟩
    rw [ParamView.ofNode, if_pos hk, Node.children_eq hitems]
    rfl
  · left
    refine ⟨?_, if_neg hk⟩
    unfold Syntax.isParameter at hc
    split at hc
    case h_1 heq => exact absurd heq hk
    case h_2 => exact hc

/-- The parameters of a function are the members of its list. -/
theorem Node.Sound.exists_param (h : n.Sound tree) (hv : FunctionView.ofNode? tree n = some v) (hw : w ∈ v.params) :
    ∃ list ∈ n.children, list.kind = .paramList ∧ v.paramList = some list ∧
      ∃ c ∈ list.children, c.Sound tree ∧ Syntax.isParameter c.kind = true ∧ w = .ofNode c := by
  have hk : n.kind = .function := by
    by_contra hk
    rw [FunctionView.ofNode?, if_neg hk] at hv
    cases hv
  obtain ⟨s, hs⟩ := h.exists_functionShape hk
  cases (hs.view hk).symm.trans hv
  unfold FunctionView.params at hw
  split at hw
  case h_2 => cases hw
  case h_1 list hlist =>
    obtain ⟨c, hc, rfl⟩ := List.mem_map.1 hw
    have hlist : s.paramList = some list := hlist
    have hmem : list ∈ n.children := by
      rw [Node.mem_children, hs.items]
      simp [FunctionShape.items, hlist]
    have hkind := hs.paramList list hlist
    have hsound := h.child hmem
    exact ⟨list, hmem, hkind, hlist, c, hc, hsound.child hc, hsound.isParameter hkind hc, rfl⟩

/-- A parameter binds a name at its start, and its default value comes behind that. -/
theorem Node.Sound.param_spans (h : c.Sound tree) (hc : Syntax.isParameter c.kind = true) :
    (ParamView.ofNode c).node = c ∧ (ParamView.ofNode c).binding ∈ c.descendants ∧
      ∀ d ∈ (ParamView.ofNode c).default?,
        (ParamView.ofNode c).binding.range.stop ≤ d.range.start ∧ d.range.stop ≤ c.range.stop := by
  rcases h.param_cases hc with ⟨-, hview⟩ | ⟨name, i, value, hitems, -, -, hview⟩ <;> rw [hview]
  · exact ⟨rfl, c.self_mem_descendants, fun _ h => by cases h⟩
  · have hchildren : c.children = [name, value] := Node.children_eq hitems
    obtain ⟨hapart, hin⟩ := h.children_apart
    rw [hchildren] at hapart hin
    refine ⟨rfl, Node.mem_descendants_of_child (by simp [hchildren]), fun d hd => ?_⟩
    cases hd
    exact ⟨(List.pairwise_cons.1 hapart).1 value (by simp), (hin value (by simp)).2.2⟩

theorem Node.Sound.binding (h : n.Sound tree) (hv : FunctionView.ofNode? tree n = some v) (hw : w ∈ v.params) :
    w.binding.Sound tree := by
  obtain ⟨_, -, -, -, c, -, hc, hparam, rfl⟩ := h.exists_param hv hw
  exact (hc.descendant (hc.param_spans hparam).2.1).1

end Respell
