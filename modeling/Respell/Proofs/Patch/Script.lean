import Respell.Patch.Assembly

/-!
Runs of scripts.

What a script does first and what it does then are run one after the other (`Script.run_bind`).  A step on
the context leaves the patcher alone, a call changes one part of it.
-/

namespace Respell

/-- What stands for the calls of a script. -/
abbrev Callee (γ κ : Type) : Type := Call → Patcher κ → γ → Outcome γ κ Unit

variable {γ κ α β : Type} {callee : Callee γ κ}

namespace Outcome

/-- Goes on with another script after this outcome, unless it failed. -/
def andThen (callee : Call → Patcher κ → γ → Outcome γ κ Unit) (o : Outcome γ κ α)
    (f : α → Script γ κ β) : Outcome γ κ β :=
  match o.result with
  | .ok a => (f a).run callee o.patcher o.context
  | .error e => ⟨.error e, o.patcher, o.context⟩

end Outcome

namespace Script

theorem run_bind (s : Script γ κ α) (f : α → Script γ κ β) (p : Patcher κ) (g : γ) :
    (s >>= f).run callee p g = (s.run callee p g).andThen callee f := by
  show (s.bind f).run callee p g = _
  induction s generalizing p g with
  | done a => rfl
  | fail e => rfl
  | read next ih => exact ih g p g
  | write g' next ih => exact ih p g'
  | self next ih => exact ih p p g
  | become k next ih => exact ih (p.withConstruct k) g
  | demand i next ih => exact ih (p.withParts (p.parts.modify i Patcher.demandValue)) g
  | adjust i h next ih => exact ih (p.withParts (p.parts.modify i (Patcher.adjust h))) g
  | call i c next ih =>
    simp only [bind, run]
    cases p.parts[i]? with
    | none => exact ih (.ok ()) p g
    | some child => exact ih _ _ _

theorem run_ofExcept (r : Except PatchError α) (p : Patcher κ) (g : γ) :
    (ofExcept r : Script γ κ α).run callee p g = ⟨r, p, g⟩ := by
  cases r <;> rfl

theorem run_lift (m : γ → Except PatchError α × γ) (p : Patcher κ) (g : γ) :
    (lift m : Script γ κ α).run callee p g = ⟨(m g).1, p, (m g).2⟩ := run_ofExcept _ _ _

theorem run_callPart {i : Nat} {p child : Patcher κ} (h : p.parts[i]? = some child) (c : Call) (g : γ) :
    (callPart i c : Script γ κ Unit).run callee p g =
      ⟨(callee c child g).result, p.withParts (p.parts.set i (callee c child g).patcher),
        (callee c child g).context⟩ := by
  simp only [callPart, run, h]
  exact run_ofExcept _ _ _

end Script

namespace Patcher

@[simp] theorem parts_withParts (p : Patcher κ) (parts : List (Patcher κ)) : (p.withParts parts).parts = parts := by
  cases p
  rfl

theorem height_eq (p : Patcher κ) : p.height = heights p.parts + 1 := by
  cases p
  rfl

theorem height_le_heights {p : Patcher κ} {ps : List (Patcher κ)} (h : p ∈ ps) : p.height ≤ heights ps := by
  induction ps with
  | nil => cases h
  | cons q qs ih =>
    rw [heights]
    rcases List.mem_cons.1 h with rfl | h
    · exact Nat.le_max_left _ _
    · exact Nat.le_trans (ih h) (Nat.le_max_right _ _)

theorem height_lt_of_mem {p q : Patcher κ} (h : q ∈ p.parts) : q.height < p.height := by
  rw [height_eq p]
  exact Nat.lt_succ_of_le (height_le_heights h)

end Patcher

namespace Script

/-- Calls of all parts, one after the other, that leave the context as it is. -/
theorem run_forM_callPart {c : Call} {g : γ} {before todo : List (Patcher κ)} {p : Patcher κ}
    (hp : p.parts = before ++ todo)
    (h : ∀ q ∈ todo, (callee c q g).result = .ok () ∧ (callee c q g).context = g) :
    ((List.range' before.length todo.length).forM fun i => (callPart i c : Script γ κ Unit)).run callee p g =
      ⟨.ok (), p.withParts (before ++ todo.map fun q => (callee c q g).patcher), g⟩ := by
  induction todo generalizing before p with
  | nil =>
    rw [List.map_nil, ← hp]
    cases p
    rfl
  | cons q todo ih =>
    obtain ⟨hres, hctx⟩ := h q List.mem_cons_self
    have hq : p.parts[before.length]? = some q := by simp [hp]
    have hset : p.parts.set before.length (callee c q g).patcher =
        (before ++ [(callee c q g).patcher]) ++ todo := by simp [hp]
    have hrest := @ih (before ++ [(callee c q g).patcher])
      (p.withParts (p.parts.set before.length (callee c q g).patcher)) (by simp [hset])
      fun q' hq' => h q' (List.mem_cons_of_mem _ hq')
    rw [List.length_cons, List.range'_succ]
    show ((callPart before.length c : Script γ κ Unit) >>= fun _ => _).run callee p g = _
    rw [run_bind, run_callPart hq, Outcome.andThen, hres, hctx]
    rw [List.length_append, List.length_singleton] at hrest
    refine hrest.trans ?_
    cases p
    simp [Patcher.withParts]

end Script

end Respell
