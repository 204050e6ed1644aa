import Mathlib.Algebra.GroupWithZero.Nat
import Respell.Proofs.Normalize.Refinement
import Respell.Proofs.Scoping.Claims

/-!
Normalizing a program without faults fails for want of a name only.

The translation of a node takes at most one name for each loop in it (`takes_textOf`), and it fails only if every
candidate for the value of a loop is read or declared in the program or was taken before.  There are ten thousand
candidates, so a program that fails has as many names and loops (`apply_ok_or_exhausted`).
-/

namespace Respell

open List

/-! ## Counting nodes -/

theorem Forest.countP_descendants (P : Node → Bool) (f : Forest Label) :
    f.descendants.countP P = (f.nodes.map fun c => c.descendants.countP P).sum := by
  induction f with
  | nil => rfl
  | token i rest ih => exact ih
  | node l inside rest _ ih =>
    rw [Forest.descendants, ← cons_append, countP_append, ih, Forest.nodes, map_cons, sum_cons, Node.descendants_eq]

namespace Node

/-- The number of loops in a node. -/
def loops (n : Node) : Nat := n.descendants.countP fun d => d.kind == .forExpr

theorem loops_eq (n : Node) : n.loops = (n.children.map loops).sum + if n.kind = .forExpr then 1 else 0 := by
  rw [loops, descendants_eq, countP_cons, Forest.countP_descendants]
  simp only [beq_iff_eq]
  rfl

end Node

/-! ## Candidates -/

namespace Scopes

theorem candidate_injective (hint : String) : Function.Injective (candidate hint) := by
  have hne (n : Nat) : candidate hint (n + 1) ≠ hint := fun h => by
    simp [candidate, String.ext_iff] at h
  intro j k h
  cases j with
  | zero =>
    cases k with
    | zero => rfl
    | succ k => exact absurd h.symm (hne k)
  | succ j =>
    cases k with
    | zero => exact absurd h (hne j)
    | succ k =>
      have hdigits : Nat.toDigits 10 (j + 1) = Nat.toDigits 10 (k + 1) := by
        simpa [candidate, String.ext_iff, Nat.toString_eq_ofList_toDigits] using h
      have := congrArg (Nat.ofDigitChars 10 · 0) hdigits
      simpa [Nat.ofDigitChars_ten_toDigits] using this

end Scopes

namespace Normalize

open Scopes

variable {tree : Tree} {α β : Type}

/-- With some names given out, at most `most`, no candidate for the value of a loop is free in some scope. -/
def Exhausted (tree : Tree) (most : Nat) : Prop :=
  ∃ given w, List.length given ≤ most ∧ ∀ k < candidateCount, ¬ tree.Free given w (candidate "value" k)

/-- The translation takes at most `count` names, and it fails only if none is left. -/
def Takes (tree : Tree) (count : Nat) (t : Translating α) : Prop :=
  ∀ given s, Records tree given s →
    match t s with
    | some (_, s') => ∃ given', Records tree given' s' ∧ given'.length ≤ given.length + count
    | none => Exhausted tree (given.length + count)

theorem Exhausted.mono {m m' : Nat} (h : Exhausted tree m) (hle : m ≤ m') : Exhausted tree m' := by
  obtain ⟨given, w, hlen, hbound⟩ := h
  exact ⟨given, w, Nat.le_trans hlen hle, hbound⟩

namespace Takes

variable {m m' : Nat} {t : Translating α}

theorem pure (a : α) : Takes tree 0 (Pure.pure a) := fun given _ h => ⟨given, h, Nat.le_refl _⟩

theorem bind {u : α → Translating β} (h : Takes tree m t) (hu : ∀ a, Takes tree m' (u a)) :
    Takes tree (m + m') (t >>= u) := by
  intro given s hs
  have hbind : (t >>= u) s = (t s).bind fun r => u r.1 r.2 := rfl
  have ht := h given s hs
  rw [hbind]
  cases hr : t s with
  | none =>
    rw [hr] at ht
    exact Exhausted.mono ht (by omega)
  | some r =>
    rw [hr] at ht
    obtain ⟨given', hs', hlen⟩ := ht
    have := hu r.1 given' r.2 hs'
    rw [Option.bind_some]
    cases hr' : u r.1 r.2 with
    | none =>
      rw [hr'] at this
      exact Exhausted.mono this (by omega)
    | some r' =>
      rw [hr'] at this
      obtain ⟨given'', hs'', hlen'⟩ := this
      exact ⟨given'', hs'', by omega⟩

theorem map {u : α → β} (h : Takes tree m t) : Takes tree m (t >>= fun a => Pure.pure (u a)) :=
  h.bind fun a => pure (u a)

theorem mono (h : Takes tree m t) (hle : m ≤ m') : Takes tree m' t := by
  intro given s hs
  have ht := h given s hs
  cases hr : t s with
  | none =>
    rw [hr] at ht
    exact Exhausted.mono ht (by omega)
  | some r =>
    rw [hr] at ht
    obtain ⟨given', hs', hlen⟩ := ht
    exact ⟨given', hs', by omega⟩

theorem claimName (scope : Nat) : Takes tree 1 (claimName scope "value") := by
  intro given s hs
  rw [show Normalize.claimName scope "value" s = s.claim? scope "value" from rfl]
  cases hr : s.claim? scope "value" with
  | none =>
    refine ⟨given, scope, by omega, fun k hk => ?_⟩
    exact hs.isBound_iff.1 (hs.passes.claim?_eq_none.1 hr k hk)
  | some r => exact ⟨_, hs.claim hr, Nat.le_refl _⟩

theorem mapM {f : α → Translating β} {cost : α → Nat} {xs : List α} (h : ∀ x ∈ xs, Takes tree (cost x) (f x)) :
    Takes tree (xs.map cost).sum (xs.mapM f) := by
  induction xs with
  | nil => exact pure []
  | cons x xs ih =>
    rw [mapM_cons, map_cons, sum_cons]
    exact (h x mem_cons_self).bind fun y => (ih fun x hx => h x (mem_cons_of_mem _ hx)).map

end Takes

/-! ## Texts -/

section Texts

variable {of : Node → Translating (List Char)} {n : Node}

theorem takes_valueText (scope : Nat) {value : Option Node} (h : ∀ c ∈ value, Takes tree c.loops (of c)) :
    Takes tree ((value.toList.map Node.loops).sum + 1) (valueText of scope value) := by
  cases value with
  | none => exact (Takes.pure _).mono (Nat.zero_le _)
  | some c =>
    have hc := h c rfl
    have hsum : ((some c).toList.map Node.loops).sum = c.loops := by simp
    rw [hsum]
    rw [valueText]
    split
    · exact hc.map.map.mono (Nat.le_succ _)
    · rw [Nat.add_comm]
      exact (Takes.claimName scope).bind fun name => hc.map

/-- The parts of a loop are its children. -/
theorem loop_parts_perm {s : LoopShape} {v : LoopView} (hs : s.Of tree n)
    (hv : v = s.header.view tree s.keyword s.thenToken s.body) :
    (v.key.toList ++ v.value.toList ++ s.header.target :: v.filter.toList ++ [s.body]).Perm n.children := by
  have hnodes : s.header.items.filterMap Item.node? = s.header.nodes := by
    obtain ⟨_, ⟨first, second, word, target, filter⟩, _, _, _⟩ := s
    rcases second with _ | ⟨i, second⟩ <;> rcases filter with _ | ⟨j, filter⟩ <;> rfl
  have hview := @Header.view_nodes tree s.header s.keyword s.thenToken s.body
  rw [← hv] at hview
  have hheader : (v.key.toList ++ v.value.toList ++ s.header.target :: v.filter.toList).Perm s.header.nodes := by
    rw [← hview]
    refine List.Perm.append_right _ ?_
    split
    · exact List.Perm.refl _
    · exact perm_append_comm
  rw [Node.children_eq hs.items, LoopShape.items]
  split
  · rw [filterMap_append, hnodes]
    exact (hheader.append_right _).trans perm_append_comm
  · have hthen : ((s.thenToken.map Item.token).toList.filterMap Item.node?) = [] := by
      cases s.thenToken <;> rfl
    rw [filterMap_append, filterMap_append, filterMap_append, hnodes, hthen, append_nil]
    exact hheader.append_right _

/-- A node takes at most one name for each loop in it, if the nodes in it do. -/
theorem takes_nodeText (hn : n.Sound tree) (hof : ∀ c ∈ n.children, Takes tree c.loops (of c)) :
    Takes tree n.loops (nodeText tree of n) := by
  unfold nodeText
  rw [Node.loops_eq]
  rcases construct_cases hn with ⟨s, hk, hs⟩ | ⟨body, i, condition, hk, hitems, hif, -, hloop, hview⟩ | ⟨hloop, hview⟩
  · obtain ⟨v, hview, hv, hfor, htarget, hbody, -⟩ := hs.exists_view hk
    have hperm := loop_parts_perm hs hv
    have hpart (c : Node) (hc : c ∈ v.key.toList ++ v.value.toList ++ s.header.target :: v.filter.toList ++ [s.body]) :
        Takes tree c.loops (of c) := hof c (hperm.mem_iff.1 hc)
    obtain ⟨t, ht, -⟩ := tree.exists_token (i := s.keyword) (by rw [hs.keyword]; rfl)
    simp only [hview]
    rw [loopText_eq hfor ht htarget hbody rfl, ← (hperm.map Node.loops).sum_nat, if_pos hk]
    refine Takes.mono ((Takes.mapM fun c hc => (hpart c (by simp [hc])).map).bind fun key =>
      (takes_valueText _ fun c hc => hpart c (by simp [Option.mem_def.1 hc])).bind fun value =>
      (hpart s.header.target (by simp)).bind fun x =>
      (Takes.mapM fun c hc => (hpart c (by simp [hc])).map).bind fun filter =>
      (hpart s.body (by simp)).map) ?_
    simp only [map_append, map_cons, map_nil, sum_append, sum_cons, sum_nil]
    omega
  · obtain ⟨t, ht, -⟩ := tree.exists_token (i := i) (by rw [hif]; rfl)
    have hchildren : n.children = [body, condition] := Node.children_eq hitems
    simp only [hloop, hview, conditionalText, Option.bind_some, ht, lift_some, pure_bind, hchildren]
    refine Takes.mono ((hof condition (by simp [hchildren])).bind fun x => (hof body (by simp [hchildren])).map) ?_
    simp only [map_cons, map_nil, sum_cons, sum_nil]
    omega
  · simp only [hloop, hview]
    exact (Takes.mapM fun c hc => (hof c hc).map).map.mono (Nat.le_add_right _ _)

theorem takes_textOf (hn : n.Sound tree) : Takes tree n.loops (textOf tree n) := by
  refine Node.descendants_induction (P := fun n => n.Sound tree → Takes tree n.loops (textOf tree n)) ?_ n hn
  intro n ih hn
  refine takes_nodeText hn fun c hc => ?_
  rw [lookup_texts hn hc]
  exact ih c (Node.child_mem_descendants hc) (hn.child hc)

end Texts

/-! ## Running out of names -/

/-- Ten thousand names are taken by as many names and loops of the program. -/
theorem Exhausted.le_count {most : Nat} (h : Exhausted tree most) :
    candidateCount ≤ (tree.root.descendants.countP fun d => d.kind == .ident) + most := by
  obtain ⟨given, w, hlen, hbound⟩ := h
  obtain ⟨idents, hidents⟩ : ∃ ids : List Node, ids = tree.root.descendants.filter fun d => d.kind == .ident :=
    ⟨_, rfl⟩
  have hmem {o : Occurrence} (ho : o ∈ tree.occurrences) (hk : o.node.kind = .ident) :
      tree.nodeText o.node ∈ idents.map tree.nodeText := by
    have hnode : o.node ∈ tree.root.elements.descendants := by
      rw [← Forest.occurrences_node]
      exact mem_map_of_mem ho
    refine mem_map_of_mem ?_
    rw [hidents]
    exact mem_filter.2 ⟨Node.mem_descendants_of_elements hnode, by simp [hk]⟩
  have hsub : (List.range candidateCount).map (candidate "value") ⊆ idents.map tree.nodeText ++ given.map Prod.snd := by
    intro x hx
    obtain ⟨k, hk, rfl⟩ := mem_map.1 hx
    have hfree := hbound k (mem_range.1 hk)
    by_contra hnot
    rw [mem_append, not_or] at hnot
    refine hfree ⟨?_, fun v _ => ?_, fun v _ hgiven => hnot.2 (mem_map_of_mem (f := Prod.snd) hgiven)⟩
    · rintro ⟨o, ho, hk, -, htext⟩
      exact hnot.1 (htext ▸ hmem ho hk)
    · rintro ⟨o, ho, hk, -, -, htext⟩
      exact hnot.1 (htext ▸ hmem ho hk)
  have hle := (nodup_range.map (candidate_injective "value")).subperm hsub |>.length_le
  rw [length_map, length_range, length_append, length_map, length_map, hidents, ← countP_eq_length_filter] at hle
  omega

theorem exhausted_of_translation (h : tree.root.Sound tree ∨ tree.Blank) (hnone : translation tree = none) :
    Exhausted tree tree.root.loops := by
  have htakes : Takes tree tree.root.loops (textOf tree tree.root) := by
    rcases h with h | h
    · exact takes_textOf h
    · rw [textOf_of_blank h]
      exact (Takes.pure _).mono (Nat.zero_le _)
  have htext : textOf tree tree.root (.ofTree tree) = none := by
    cases ht : textOf tree tree.root (.ofTree tree) with
    | none => rfl
    | some r => simp [translation, StateT.run, ht] at hnone
  have hall := htakes [] _ (records_ofTree tree)
  rwa [htext, length_nil, Nat.zero_add] at hall

/-- Normalizing a program without faults gives a text, or it fails because no name is free for a temporary.  It
can fail only if the program has ten thousand names and loops. -/
theorem apply_ok_or_exhausted (text : String) (h : (Parse.ofText text.toList).errors = []) :
    (∃ u, Stage.apply .normalize text = .ok u) ∨
      (∃ hint range, Stage.apply .normalize text = .error ⟨.normalize, text, .patch (.binding hint range)⟩) ∧
        10000 ≤ ((Parse.ofText text.toList).tree.root.descendants.countP fun d => d.kind == .ident) +
          (Parse.ofText text.toList).tree.root.loops := by
  have hrenders := @renders_ofText text.toList
  have hsound := @Parse.sound_ofText text.toList
  simp only [Stage.apply_eq_ok_iff, Stage.apply_eq_error_iff]
  generalize Parse.ofText text.toList = parsed at *
  replace hrenders := hrenders h
  unfold Renders at hrenders
  cases htranslation : translation parsed.tree with
  | some u =>
    rw [htranslation] at hrenders
    exact Or.inl ⟨u, h, hrenders⟩
  | none =>
    rw [htranslation] at hrenders
    obtain ⟨hint, range, -, hrun⟩ := hrenders
    exact Or.inr ⟨⟨hint, range, Or.inr ⟨h, _, hrun, rfl⟩⟩, (exhausted_of_translation (hsound h) htranslation).le_count⟩

theorem apply_ok_or_exhausted_trailing_loop :
    let text := "f(x) for [x, @y] in z if w"
    (Parse.ofText text.toList).errors = [] ∧
      ((∃ u, Stage.apply .normalize text = .ok u) ∨
        (∃ hint range, Stage.apply .normalize text = .error ⟨.normalize, text, .patch (.binding hint range)⟩) ∧
          10000 ≤ ((Parse.ofText text.toList).tree.root.descendants.countP fun d => d.kind == .ident) +
            (Parse.ofText text.toList).tree.root.loops) := by
  have herrors : (Parse.ofText "f(x) for [x, @y] in z if w".toList).errors = [] := by decide +kernel
  exact ⟨herrors, apply_ok_or_exhausted _ herrors⟩

end Normalize

end Respell
