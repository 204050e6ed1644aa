import Respell.Proofs.Tree.Functions

/-!
Where values may be asked for.

A construct is written as a statement unless its value is asked for.  Whether that can happen to a node
depends on the nodes around it only: statements of a body that stand without parentheses are not asked
unless the body is, and all else is.  `Node.asked` lists the nodes that may be asked for their values.
-/

namespace Respell

variable {tree : Tree}

/-- The node starts on a line of its own that is indented deeper. -/
def Node.isIndented (tree : Tree) (n : Node) : Bool :=
  match n.tokens with
  | some (first + 1, _) => tree.kindAt first == .indent
  | _ => false

namespace Javascript

/-- The construct of `n`, asked for its value or not, may ask its child `c`. -/
def asks (tree : Tree) (value : Bool) (n c : Node) : Bool :=
  match n.kind with
  | .program | .parenExpr => value
  | .block => value || c.kind != .ifExpr
  | .ifExpr =>
    value || (ConditionalView.ofNode? tree n).any fun v => v.condition.any fun d => d.id == c.id
  | .forExpr => c.kind != .block
  | .function => c.kind != .block || (!c.isIndented tree && n.ownTokens.any (tree.kindAt · == .fatArrow))
  | _ => true

/-- A construct of the kind asks all its parts. -/
def isPlain : Kind → Bool
  | .program | .parenExpr | .block | .ifExpr | .forExpr | .function => false
  | _ => true

theorem asks_of_isPlain {value : Bool} {n c : Node} (h : isPlain n.kind = true) : asks tree value n c = true := by
  unfold asks
  split <;> first | rfl | (rename_i hk; rw [hk] at h; cases h)

theorem asks_mono {n c : Node} (h : asks tree false n c = true) : asks tree true n c = true := by
  unfold asks at h ⊢
  split at h <;> simp_all

end Javascript

open Javascript

/-- The nodes of a forest in `n` that may be asked for their values. -/
def Forest.asked (tree : Tree) (value : Bool) (n : Node) : Forest Label → List Node
  | nil => []
  | token _ rest => rest.asked tree value n
  | node l inside rest =>
    let isAsked := asks tree value n ⟨l, inside⟩
    (if isAsked then [⟨l, inside⟩] else []) ++ inside.asked tree isAsked ⟨l, inside⟩ ++
      rest.asked tree value n

/-- The nodes from `n` down that may be asked for their values, given whether `n` is. -/
def Node.asked (tree : Tree) (value : Bool) (n : Node) : List Node :=
  (if value then [n] else []) ++ n.elements.asked tree value n

theorem Forest.asked_mono (f : Forest Label) {n : Node} : f.asked tree false n ⊆ f.asked tree true n := by
  induction f generalizing n with
  | nil => exact fun _ h => h
  | token i rest ih => exact ih
  | node l inside rest ihInside ih =>
    intro d hd
    simp only [asked, List.mem_append] at hd ⊢
    refine hd.imp (fun hd => ?_) fun hd => ih hd
    cases hfalse : asks tree false n ⟨l, inside⟩ with
    | true =>
      rw [hfalse] at hd
      rwa [asks_mono hfalse]
    | false =>
      rw [hfalse] at hd
      have hd : d ∈ inside.asked tree false ⟨l, inside⟩ := by simpa using hd
      cases asks tree true n ⟨l, inside⟩ with
      | true => exact Or.inr (ihInside hd)
      | false => exact Or.inr hd

theorem Forest.asked_nodes {f : Forest Label} {value : Bool} {n c : Node} (hc : c ∈ f.nodes) :
    c.asked tree (asks tree value n c) ⊆ f.asked tree value n := by
  induction f with
  | nil => cases hc
  | token i rest ih => exact ih hc
  | node l inside rest _ ih =>
    intro d hd
    simp only [asked, List.mem_append]
    rcases List.mem_cons.1 hc with rfl | hc
    · exact Or.inl (List.mem_append.1 hd)
    · exact Or.inr (ih hc hd)

namespace Node

variable {n c : Node} {value : Bool}

theorem mem_asked_true (n : Node) : n ∈ n.asked tree true := List.mem_cons_self

theorem asked_mono (n : Node) : n.asked tree false ⊆ n.asked tree true := fun _ hd =>
  List.mem_append_right _ (n.elements.asked_mono hd)

theorem asked_false (n : Node) (value : Bool) : n.asked tree false ⊆ n.asked tree value := by
  cases value with
  | false => exact fun _ h => h
  | true => exact n.asked_mono

theorem asked_child (hc : c ∈ n.children) : c.asked tree (asks tree value n c) ⊆ n.asked tree value :=
  fun _ hd => List.mem_append_right _ (Forest.asked_nodes hc hd)

theorem asked_true_child (hc : c ∈ n.children) (h : asks tree value n c = true) :
    c.asked tree true ⊆ n.asked tree value := h ▸ asked_child hc

theorem asked_false_child (hc : c ∈ n.children) : c.asked tree false ⊆ n.asked tree value :=
  fun _ hd => asked_child hc (c.asked_false _ hd)

end Node

end Respell
