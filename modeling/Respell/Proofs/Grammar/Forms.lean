import Respell.Proofs.Grammar.Signs

/-!
The child nodes of every node, faults or not.

That every node has a row of its kind is a trait of its events.  All rules keep it, so it holds of every tree
(`Parse.formed_ofText`).
-/

namespace Respell

open Form

namespace Forest

/-- The kinds of the nodes among the direct elements. -/
def kinds : Forest Kind → List Kind
  | nil => []
  | token _ rest => rest.kinds
  | node k _ rest => k :: rest.kinds

/-- Every node has a row of its kind. -/
def Formed : Forest Kind → Prop
  | nil => True
  | token _ rest => rest.Formed
  | node k inside rest => inside.kinds ∈ ofKind k ∧ inside.Formed ∧ rest.Formed

theorem kinds_append (f g : Forest Kind) : (f.append g).kinds = f.kinds ++ g.kinds := by
  induction f with
  | nil => rfl
  | token i rest ih => exact ih
  | node k inside rest _ ih => rw [append, kinds, kinds, ih, List.cons_append]

theorem Formed.append {f g : Forest Kind} (hf : f.Formed) (hg : g.Formed) : (f.append g).Formed := by
  induction f with
  | nil => exact hg
  | token i rest ih => exact ih hf
  | node k inside rest _ ih => exact ⟨hf.1, hf.2.1, ih hf.2.2⟩

end Forest

/-! ## Events -/

/-- The events of nodes that have rows of their kinds, and make a row of `l` themselves. -/
def Shaped (es : List Event) (l : Language Kind) : Prop := ∃ f : Forest Kind, es = f.events ∧ f.Formed ∧ f.kinds ∈ l

namespace Shaped

variable {es es' : List Event} {l l' : Language Kind}

theorem mono (h : Shaped es l) (hl : l ≤ l') : Shaped es l' := by
  obtain ⟨f, he, hf, hk⟩ := h
  exact ⟨f, he, hf, hl hk⟩

theorem nil : Shaped [] 1 := ⟨.nil, rfl, trivial, rfl⟩

theorem token (i : Nat) : Shaped [.token i] 1 := ⟨.token i .nil, rfl, trivial, rfl⟩

theorem mul (h : Shaped es l) (h' : Shaped es' l') : Shaped (es ++ es') (l * l') := by
  obtain ⟨f, rfl, hf, hk⟩ := h
  obtain ⟨g, rfl, hg, hk'⟩ := h'
  refine ⟨f.append g, by simp, hf.append hg, ?_⟩
  rw [Forest.kinds_append]
  exact Language.append_mem_mul hk hk'

theorem wrap {k : Kind} (h : Shaped es l) (hl : l ≤ ofKind k) : Shaped (Grammar.wrap k es) (one k) := by
  obtain ⟨f, rfl, hf, hk⟩ := h
  exact ⟨.node k f .nil, rfl, ⟨hl hk, hf, trivial⟩, rfl⟩

end Shaped

/-! ## Rules -/

namespace Grammar

/-- The nodes among the events have rows of their kinds. -/
def forms (text : List Char) (tokens : List Token) : Trait text tokens where
  good := Shaped
  ifClean := False
  mono := Shaped.mono
  nil := .nil
  token := .token
  mul := .mul
  ident _ := (Shaped.token _).wrap (le_refl _)
  wrap _ _ _ := .wrap

theorem forms_program (text : List Char) (tokens : List Token) : Shaped (program text tokens).1 (one .program) := by
  refine good_program (T := forms text tokens) id (fun h hl => h.wrap hl) fun call h c hc => Ends.get_bind ?_
  split
  · refine (Adds.token (forms text tokens)).first hc fun sign c₁ hs => ?_
    refine (((h .unary).adds rfl rfl).mono single_le_nested).next hs fun operand c₂ hall => Ends.pure ?_
    exact ⟨hall.follows, hall.faults, fun hclean =>
      ((hall.good hclean).wrap (le_refl _)).mono (node_le_single (by decide))⟩
  · exact (h .attached).adds rfl rfl c hc

end Grammar

/-! ## Trees -/

theorem Forest.label_kinds {tokens : List Token} (f : Forest Kind) (next lastEnd : Nat) :
    (f.label tokens next lastEnd).forest.nodes.map (·.kind) = f.kinds := by
  induction f generalizing next lastEnd with
  | nil => rfl
  | token i rest ih => exact ih _ _
  | node k inside rest _ ih => exact congrArg (k :: ·) (ih _ _)

theorem Forest.Formed.label {tokens : List Token} {f : Forest Kind} (h : f.Formed) (next lastEnd : Nat) :
    ∀ d ∈ (f.label tokens next lastEnd).forest.descendants, d.children.map (·.kind) ∈ ofKind d.kind := by
  induction f generalizing next lastEnd with
  | nil => exact fun d hd => absurd hd List.not_mem_nil
  | token i rest ih => exact ih h _ _
  | node k inside rest ihInside ih =>
    obtain ⟨hrow, hinside, hrest⟩ := h
    intro d hd
    rcases List.mem_cons.1 hd with rfl | hd
    · show ((inside.label tokens _ _).forest.nodes.map (·.kind)) ∈ _
      rw [label_kinds]
      exact hrow
    · rcases List.mem_append.1 hd with hd | hd
      · exact ihInside hinside _ _ d hd
      · exact ih hrest _ _ d hd

/-- Every node of a tree has a row of its kind. -/
theorem Parse.formed_ofText (text : List Char) :
    ∀ d ∈ (Parse.ofText text).tree.root.descendants, d.children.map (·.kind) ∈ ofKind d.kind := by
  obtain ⟨f, hf⟩ := Parse.exists_block text
  obtain ⟨-, -, hroot⟩ := hf.tree_eq
  obtain ⟨g, he, hg, -⟩ := Grammar.forms_program text (Lexed.ofText text).tokens
  obtain rfl : Parse.program f = g := by
    rw [← Forest.ofEvents_events (Parse.program f), ← hf.events, he, Forest.ofEvents_events]
  unfold Node.descendants
  rw [hroot]
  exact hg.label 0 0

end Respell
