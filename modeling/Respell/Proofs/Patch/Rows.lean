import Respell.Proofs.Patch.Walks

/-!
Parts in a row.

The parts of a construct are taken one after the other while its patcher is put together, so they stand in a row:
each is at the place after the one before it.  A script that patches them in the same order comes to the end of the
row (`Script.InTurn`), and a tree of patchers that is put together so is tidy (`Forest.made_results`).
-/

namespace Respell

open List

variable {α β κ : Type} {Placed : κ → Nat → Prop}

/-- The parts stand at the places from `k` up to `n`, in order. -/
def Part.Row : List Part → (k n : Nat) → Prop
  | [], k, n => k = n
  | p :: ps, k, n => p.place = k ∧ Row ps (k + 1) n

namespace Part.Row

variable {ps : List Part}

theorem le {k n : Nat} (h : Row ps k n) : k ≤ n := by
  induction ps generalizing k with
  | nil => exact Nat.le_of_eq h
  | cons p ps ih => exact Nat.le_of_succ_le (ih h.2)

theorem concat {k n : Nat} (h : Row ps k n) {p : Part} (hp : p.place = n) : Row (ps ++ [p]) k (n + 1) := by
  induction ps generalizing k with
  | nil => exact ⟨hp.trans h.symm, congrArg _ h⟩
  | cons q ps ih => exact ⟨h.1, ih h.2⟩

end Part.Row

/-! ## Patching a row -/

namespace Script.InTurn

variable {c : Call} {n k : Nat} {Q : α → Nat → Prop} {R : β → Nat → Prop} {p : Part} {ps : List Part}
  {s : Script Context κ α} {m : Patching α} {f : α → Script Context κ PUnit}

/-- First something that comes to no part. -/
theorem still_bind {f : α → Script Context κ β} (hs : s.InTurn c n k fun _ k' => k' = k)
    (hf : ∀ a, (f a).InTurn c n k R) : (s >>= f).InTurn c n k R := by
  refine hs.bind ?_
  rintro a _ rfl
  exact hf a

theorem step_bind (hm : m.Mild) {f : α → Script Context κ β} (hf : ∀ a, (f a).InTurn c n k R) :
    (liftM m >>= f).InTurn c n k R := (step hm).still_bind hf

theorem step_last (hm : m.Mild) (h : ∀ a, Q a k) : (liftM m : Script Context κ α).InTurn c n k Q := by
  refine (step hm).mono ?_
  rintro a _ rfl
  exact h a

theorem stop (cause : Obstacle) (range : Span) : (Script.stop cause range : Script Context κ α).InTurn c n k Q :=
  InTurn.fail (.of_not_isViolation id)

theorem ite {b : Prop} [Decidable b] {t : Script Context κ α} (hs : s.InTurn c n k Q) (ht : t.InTurn c n k Q) :
    (if b then s else t).InTurn c n k Q := by
  split
  · exact hs
  · exact ht

theorem when {b : Prop} [Decidable b] {s : Script Context κ PUnit} {f : PUnit → Script Context κ β}
    (hs : s.InTurn c n k fun _ k' => k' = k) (hf : (f ⟨⟩).InTurn c n k R) :
    (if b then s >>= f else f ⟨⟩).InTurn c n k R := ite (hs.still_bind fun _ => hf) hf

/-- Steps on the context for each item of a list. -/
theorem forM_steps {xs : List α} (hf : ∀ x, (f x).InTurn c n k fun _ k' => k' = k) :
    (xs.forM f).InTurn c n k fun _ k' => k' = k := by
  induction xs with
  | nil => exact pure rfl
  | cons x xs ih => exact (hf x).still_bind fun _ => ih

theorem option_forM_steps {o : Option α} (hf : ∀ x, (f x).InTurn c n k fun _ k' => k' = k) :
    (o.forM f).InTurn c n k fun _ k' => k' = k := by
  cases o with
  | none => exact pure rfl
  | some x => exact hf x

theorem patchPart (h : Part.Row (p :: ps) k n) :
    (Script.patchPart p : Script Context κ Unit).InTurn .patch n k fun _ k' => Part.Row ps k' n := by
  obtain ⟨rfl, hps⟩ := h
  refine (callPart hps.le).mono ?_
  rintro _ _ rfl
  exact hps

theorem patchAndRender (h : Part.Row (p :: ps) k n) :
    (Script.patchAndRender p : Script Context κ String).InTurn .patch n k fun _ k' => Part.Row ps k' n :=
  (patchPart h).bind fun _ _ h' => step_last (.rendered _) fun _ => h'

variable {o : Option Part}

theorem option_forM_patchPart (h : Part.Row (o.toList ++ ps) k n) :
    (o.forM Script.patchPart : Script Context κ Unit).InTurn .patch n k fun _ k' => Part.Row ps k' n := by
  cases o with
  | none => exact pure h
  | some p => exact patchPart h

theorem option_mapM_patchAndRender (h : Part.Row (o.toList ++ ps) k n) :
    (o.mapM Script.patchAndRender : Script Context κ (Option String)).InTurn .patch n k
      fun _ k' => Part.Row ps k' n := by
  cases o with
  | none => exact pure h
  | some p => exact (patchAndRender h).bind fun _ _ h' => pure h'

/-- Something done at each place that is left, and the part there patched. -/
theorem forM_zipIdx {f : α × Nat → Script Context κ PUnit} {xs : List α}
    (hf : ∀ x i, i < n → (f (x, i)).InTurn c n i fun _ k' => k' = i + 1) (h : k + xs.length = n) :
    ((xs.zipIdx k).forM f).InTurn c n k fun _ k' => k' = n := by
  induction xs generalizing k with
  | nil => exact pure h
  | cons x xs ih =>
    rw [length_cons] at h
    refine (hf x k (by omega)).bind ?_
    rintro _ _ rfl
    exact ih (by omega)

theorem forM_patch (n : Nat) :
    ((List.range n).forM (Script.patch : Nat → Script Context κ Unit)).InTurn .patch n 0 fun _ k' => k' = n := by
  rw [range_eq_range']
  exact forM_callPart n (Nat.zero_add n)

end Script.InTurn

/-! ## Putting patchers together -/

/-- A node became a patcher with all patchers below it tidy, or there is an obstacle. -/
def Made (Placed : κ → Nat → Prop) : Except PatchError (Patcher κ) → Prop
  | .ok p => p.Tidy Placed .constructed
  | .error e => ¬ e.IsViolation

variable {f : Node → Results κ → Except PatchError (Patcher κ)}

/-- What all nodes become, if each becomes so from what those below became. -/
theorem Forest.made_results (hf : ∀ n results, (∀ r ∈ results, Made Placed r.2) → Made Placed (f n results))
    (forest : Forest Label) : ∀ r ∈ forest.results f, Made Placed r.2 := by
  induction forest with
  | nil => exact fun r hr => absurd hr not_mem_nil
  | token i rest ih => exact ih
  | node l inside rest ihInside ih =>
    rw [results]
    exact forall_mem_cons.2 ⟨hf _ _ ihInside, forall_mem_append.2 ⟨ihInside, ih⟩⟩

theorem Node.made_fold (hf : ∀ n results, (∀ r ∈ results, Made Placed r.2) → Made Placed (f n results)) (n : Node) :
    Made Placed (n.fold f) := hf n _ (n.elements.made_results hf)

namespace Assembly

variable {Placed : κ → Nat → Prop} {results : Results κ} {parts : List Part} {ps : List (Patcher κ)}

/-- The parts taken so far stand in a row, and their patchers are tidy. -/
def Gathered (Placed : κ → Nat → Prop) (parts : List Part) (ps : List (Patcher κ)) : Prop :=
  Part.Row parts 0 ps.length ∧ ∀ q ∈ ps, q.Tidy Placed .constructed

theorem Gathered.nil (Placed : κ → Nat → Prop) : Gathered Placed [] [] := ⟨rfl, fun _ h => absurd h not_mem_nil⟩

theorem need_gathered {cause : Obstacle} {range : Span} {o : Option α} (h : Gathered Placed parts ps) :
    Safe (fun e => ¬ e.IsViolation) (need cause range o) ps fun _ ps' => Gathered Placed parts ps' :=
  Safe.need id fun _ _ => h

theorem part_gathered (hresults : ∀ r ∈ results, Made Placed r.2) (h : Gathered Placed parts ps) (n : Node) :
    Safe (fun e => ¬ e.IsViolation) (part results n) ps fun q ps' => Gathered Placed (parts ++ [q]) ps' := by
  unfold Safe part
  cases hr : results.lookup n.id with
  | none => exact id
  | some r =>
    obtain ⟨before, after, rfl, -⟩ := lookup_eq_some_iff.1 hr
    have hmade := hresults (n.id, r) (by simp)
    cases r with
    | error e => exact hmade
    | ok p =>
      refine ⟨?_, forall_mem_append.2 ⟨h.2, forall_mem_singleton.2 hmade⟩⟩
      rw [length_append, length_singleton]
      exact h.1.concat rfl

theorem part?_gathered (hresults : ∀ r ∈ results, Made Placed r.2) (h : Gathered Placed parts ps) (o : Option Node) :
    Safe (fun e => ¬ e.IsViolation) (part? results o) ps fun q ps' => Gathered Placed (parts ++ q.toList) ps' := by
  cases o with
  | none =>
    apply Safe.pure
    simpa using h
  | some n =>
    show Safe _ (some <$> part results n) ps _
    rw [map_eq_pure_bind]
    exact (part_gathered hresults h n).bind fun q ps' h' => Safe.pure h'

theorem children_gathered (hresults : ∀ r ∈ results, Made Placed r.2) (h : Gathered Placed parts ps)
    (cs : List Node) : Safe (fun e => ¬ e.IsViolation) (cs.forM fun c => discard (part results c)) ps
      fun _ ps' => ∀ q ∈ ps', q.Tidy Placed .constructed := by
  induction cs generalizing parts ps with
  | nil => exact Safe.pure h.2
  | cons c cs ih =>
    have hpart : Safe (fun e => ¬ e.IsViolation) (discard (part results c)) ps
        fun _ ps' => ∃ q, Gathered Placed (parts ++ [q]) ps' := by
      show Safe _ ((fun _ => PUnit.unit) <$> part results c) ps _
      rw [map_eq_pure_bind]
      exact (part_gathered hresults h c).bind fun q ps' h' => Safe.pure ⟨q, h'⟩
    refine hpart.bind fun _ ps' h' => ?_
    obtain ⟨q, h'⟩ := h'
    exact ih h'

/-- The construct is placed over the parts that were taken for it. -/
def Places (Placed : κ → Nat → Prop) (m : Assembly κ κ) : Prop :=
  Safe (fun e => ¬ e.IsViolation) m [] fun k ps => Placed k ps.length ∧ ∀ q ∈ ps, q.Tidy Placed .constructed

theorem made_patcher {construct : Node → Results κ → Assembly κ κ} {n : Node} (tree : Tree)
    (hresults : ∀ r ∈ results, Made Placed r.2) (hconstruct : Places Placed (construct n results)) :
    Made Placed (patcher tree construct n results) := by
  have hinside : ∀ r ∈ (if n.kind = .parenExpr then results.head? else none), Made Placed r.2 := by
    intro r hr
    split at hr
    · exact hresults r (mem_of_mem_head? hr)
    · cases hr
  unfold patcher
  generalize (if n.kind = .parenExpr then results.head? else none) = inside at hinside ⊢
  cases inside with
  | some r =>
    -- Parentheses become the patcher of what they hold.
    obtain ⟨i, r⟩ := r
    have hr := hinside (i, r) rfl
    cases r with
    | error e => exact hr
    | ok p =>
      obtain ⟨here, placed, parts⟩ := hr
      cases p
      exact .intro here placed parts
  | none =>
    unfold Places Safe at hconstruct
    show Made Placed ((construct n results []).bind _)
    generalize construct n results [] = r at hconstruct
    cases r with
    | error e => exact hconstruct
    | ok r => exact .intro rfl hconstruct.1 hconstruct.2

end Assembly

end Respell
